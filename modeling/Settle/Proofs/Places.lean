import Settle.Proofs.Copied

/-! Places that are words.

What is made of a store does not depend on how places are written down, as long as
words are enough for them (`Store.Fits`). The last word stands for no place, and so it
does for ids; that leaves room for one payload fewer than there are words in each pool.

An operation is looked at with two ways of writing. If it never makes a store smaller
and does the same both ways where the store that it leaves fits, then the places agree
(`Placing.Agrees`): nothing that was written on the way can have run over. Agreement goes
through sequences and loops, so it is enough to look at the two operations that write a
place, `add` and `becomeSuspension`. -/
namespace Settle

namespace Store
variable {s s' s'' : Store}

/-- Words are enough for the ids of a store and for the places in its pools. -/
structure Fits (s : Store) : Prop where
  nodes : s.size + 1 < UInt32.size
  pools : ∀ form, s.pools.size form < UInt32.size

/-- The later store has lost neither nodes nor payloads, as far as their numbers go. -/
structure Within (s s' : Store) : Prop where
  nodes : s.size ≤ s'.size
  pools : ∀ form, s.pools.size form ≤ s'.pools.size form

theorem Within.refl (s : Store) : s.Within s := ⟨Nat.le_refl _, fun _ => Nat.le_refl _⟩

theorem Within.trans (h : s.Within s') (h' : s'.Within s'') : s.Within s'' :=
  ⟨Nat.le_trans h.nodes h'.nodes, fun form => Nat.le_trans (h.pools form) (h'.pools form)⟩

theorem Fits.of_within (hfits : s'.Fits) (h : s.Within s') : s.Fits :=
  ⟨Nat.lt_of_le_of_lt (Nat.succ_le_succ h.nodes) hfits.nodes,
    fun form => Nat.lt_of_le_of_lt (h.pools form) (hfits.pools form)⟩

theorem within_adopt (s : Store) (parent : NodeId) (slots : List Ref) :
    s.Within (s.adopt parent slots) :=
  ⟨Nat.le_refl _, fun _ => Nat.le_refl _⟩

theorem within_push [Placing] (s : Store) (kind : Kind) (flags : UInt32) (span : Span)
    (payload : Payload Ref) : s.Within (s.push kind flags span payload) where
  nodes := by
    rw [size_push]
    exact Nat.le_succ _
  pools := fun form => by
    show _ ≤ (s.pools.add payload).size form
    rw [Pools.size_add]
    exact Nat.le_add_right _ _

theorem within_suspended [Placing] (s : Store) (i : NodeId) (kind : Kind)
    (parts : SuspensionParts Ref) : s.Within (s.suspended i kind parts) where
  nodes := by
    show _ ≤ (s.headers.modify i _).size
    rw [Array.size_modify]
    exact Nat.le_refl _
  pools := fun form => by
    show _ ≤ (s.pools.add (.suspension parts)).size form
    rw [Pools.size_add]
    exact Nat.le_add_right _ _

theorem within_write (s : Store) (i : NodeId) (payload : Payload Ref) :
    s.Within (s.write i payload) where
  nodes := Nat.le_of_eq (congrArg Array.size (headers_write s i payload)).symm
  pools := fun form => by
    unfold write
    split
    · exact Nat.le_of_eq (Pools.size_set _ _ _ _).symm
    · exact Nat.le_refl _

end Store

namespace Placing
variable {α β : Type}

/-- A way to write places that says those for which words are enough as they are. -/
structure Faithful (placing : Placing) : Prop where
  place : ∀ {length : Nat}, length + 1 < UInt32.size → placing.place length = some length

theorem Faithful.exact : Faithful exact := ⟨fun _ => rfl⟩

theorem Faithful.word : Faithful word where
  place := fun {length} h => by
    have hmod : length % UInt32.size = length := Nat.mod_eq_of_lt (Nat.lt_of_succ_lt h)
    show (if length % UInt32.size + 1 = UInt32.size then none else some (length % UInt32.size)) = _
    rw [hmod, if_neg (Nat.ne_of_lt h)]

/-- The payload that was put last has found its place where the pools fit. -/
theorem Faithful.place_of_fits {placing : Placing} (h : Faithful placing) {pools : Pools}
    {payload : Payload Ref} (hfits : (pools.add payload).size payload.form < UInt32.size) :
    placing.place (pools.size payload.form) = some (pools.size payload.form) := by
  rw [Pools.size_add, if_pos rfl] at hfits
  exact h.place hfits

/-- An operation does not make a store smaller, and what it does is the same for all faithful ways
of writing places, where what it leaves fits. -/
structure Agrees (operation : Placing → Edit α) : Prop where
  grows : ∀ (placing : Placing) {s : Store} {a : α} {s' : Store},
    operation placing s = (a, s') → s.Within s'
  same : ∀ {placing placing' : Placing} {s : Store} {a : α} {s' : Store}, Faithful placing →
    Faithful placing' → operation placing s = (a, s') → s'.Fits → operation placing' s = (a, s')

/-! ### Sequences and loops -/

theorem agrees_of_within {operation : Edit α} (h : ∀ s : Store, s.Within (operation s).2) :
    Agrees fun _ => operation where
  grows := fun _ {s _ _} hrun => by
    have hwithin := h s
    rwa [hrun] at hwithin
  same := fun _ _ hrun _ => hrun

theorem agrees_pure (a : α) : Agrees fun _ => (pure a : Edit α) :=
  agrees_of_within Store.Within.refl

theorem agrees_get : Agrees fun _ => (get : Edit Store) := agrees_of_within Store.Within.refl

theorem Agrees.bind {first : Placing → Edit α} {next : α → Placing → Edit β} (hfirst : Agrees first)
    (hnext : ∀ a, Agrees (next a)) :
    Agrees fun placing => first placing >>= fun a => next a placing where
  grows := fun placing {s _ _} hrun => by
    rcases hbefore : first placing s with ⟨a, between⟩
    rw [Edit.bind_run hbefore] at hrun
    exact (hfirst.grows placing hbefore).trans ((hnext a).grows placing hrun)
  same := fun {placing _ s _ _} h h' hrun hfits => by
    rcases hbefore : first placing s with ⟨a, between⟩
    rw [Edit.bind_run hbefore] at hrun
    have hbetween : between.Fits := hfits.of_within ((hnext a).grows placing hrun)
    rw [Edit.bind_run (hfirst.same h h' hbefore hbetween)]
    exact (hnext a).same h h' hrun hfits

theorem Agrees.forM {each : NodeId → Placing → Edit Unit} (h : ∀ i, Agrees (each i))
    (is : List NodeId) : Agrees fun placing => is.forM fun i => each i placing := by
  induction is with
  | nil => exact agrees_pure ()
  | cons i rest ih => exact (h i).bind fun _ => ih

theorem Agrees.mapM {each : Ref → Placing → Edit Ref} (h : ∀ slot, Agrees (each slot))
    (slots : List Ref) : Agrees fun placing => slots.mapM fun slot => each slot placing := by
  induction slots with
  | nil =>
    simp only [List.mapM_nil]
    exact agrees_pure []
  | cons slot rest ih =>
    simp only [List.mapM_cons]
    exact (h slot).bind fun slot' => ih.bind fun rest' => agrees_pure (slot' :: rest')

theorem Agrees.mapSlotsM {each : Ref → Placing → Edit Ref} (h : ∀ slot, Agrees (each slot))
    (payload : Payload Ref) :
    Agrees fun placing => payload.mapSlotsM fun slot => each slot placing where
  grows := fun placing _ _ _ hrun =>
    (Agrees.mapM h payload.slots).grows placing (Edit.mapSlotsM_eq_iff.mp hrun).1
  same := fun hplacing hplacing' hrun hfits => by
    obtain ⟨hmap, hdetail⟩ := Edit.mapSlotsM_eq_iff.mp hrun
    have hmap' := (Agrees.mapM h payload.slots).same hplacing hplacing' hmap hfits
    exact Edit.mapSlotsM_eq_iff.mpr ⟨hmap', hdetail⟩

end Placing

namespace Edit
open Store Placing

/-! ### Operations -/

theorem addToken_agrees (kind : Kind) (flags : UInt32) (span : Span) :
    Agrees fun _ => addToken kind flags span :=
  agrees_of_within fun s => ⟨by
    show _ ≤ (s.pushToken kind flags span).size
    rw [size_pushToken]
    exact Nat.le_succ _, fun _ => Nat.le_refl _⟩

theorem add_agrees (kind : Kind) (flags : UInt32) (span : Span) (payload : Payload Ref) :
    Agrees fun _ => add kind flags span payload where
  grows := fun placing {s _ _} hrun => by
    cases hrun
    exact @within_push placing s kind flags span payload
  same := fun {placing placing' s _ _} h h' hrun hfits => by
    cases hrun
    have hplace := h.place_of_fits (hfits.pools payload.form)
    have hplace' := h'.place_of_fits (hfits.pools payload.form)
    show (s.size, @push placing' s kind flags span payload) =
      (s.size, @push placing s kind flags span payload)
    simp only [push, hplace, hplace']

theorem becomeSuspension_agrees (i : NodeId) (kind : Kind) (parts : SuspensionParts Ref) :
    Agrees fun _ => becomeSuspension i kind parts where
  grows := fun placing {s _ _} hrun => by
    by_cases hi : i < s.size
    · rw [@becomeSuspension_eq s placing i hi] at hrun
      cases hrun
      exact (@within_suspended placing s i kind parts).trans (within_adopt _ i [parts.operand])
    · rw [@becomeSuspension_of_le s placing i (Nat.le_of_not_lt hi)] at hrun
      cases hrun
      exact .refl s
  same := fun {placing placing' s _ _} h h' hrun hfits => by
    by_cases hi : i < s.size
    · rw [@becomeSuspension_eq s placing i hi] at hrun
      cases hrun
      have hlast : (s.pools.add (.suspension parts)).size .suspension < UInt32.size :=
        hfits.pools .suspension
      have hplace := h.place_of_fits hlast
      have hplace' := h'.place_of_fits hlast
      rw [@becomeSuspension_eq s placing' i hi]
      simp only [suspended, Payload.form] at hplace hplace' ⊢
      rw [hplace, hplace']
    · rw [@becomeSuspension_of_le s placing i (Nat.le_of_not_lt hi)] at hrun
      rw [@becomeSuspension_of_le s placing' i (Nat.le_of_not_lt hi), hrun]

theorem revise_agrees (i : NodeId) (change : Payload Ref → Option (Payload Ref)) :
    Agrees fun _ => revise i change :=
  agrees_of_within fun s => by
    cases hnew : (s.payload? i).bind change with
    | none =>
      rw [revise_of_none hnew]
      exact .refl s
    | some new =>
      rw [revise_of_some hnew]
      exact within_write s i new

theorem adopt_agrees (parent : NodeId) (child : Ref) : Agrees fun _ => adopt parent child :=
  agrees_of_within fun s => within_adopt s parent [child]

/-- A change in place, after which the node becomes the parent of what it got. -/
theorem reviseAdopting_agrees (i : NodeId) (change : Payload Ref → Option (Payload Ref))
    (child : Ref) :
    Agrees fun _ => (do
      let done ← revise i change
      if done then adopt i child
      return done : Edit Bool) := by
  refine (revise_agrees i change).bind fun done => ?_
  cases done with
  | false => exact agrees_pure false
  | true => exact (adopt_agrees i child).bind fun _ => agrees_pure true

theorem setBody_agrees (i : NodeId) (body : Ref) : Agrees fun _ => setBody i body :=
  reviseAdopting_agrees i _ body

theorem insertStatement_agrees (i : NodeId) (position : Nat) (statement : Ref) :
    Agrees fun _ => insertStatement i position statement :=
  reviseAdopting_agrees i _ statement

theorem copyWithin_agrees (depth : Nat) (i : NodeId) : Agrees fun _ => copyWithin depth i := by
  induction depth generalizing i with
  | zero => exact agrees_pure none
  | succ depth ih =>
    simp only [copyWithin]
    refine agrees_get.bind fun s => ?_
    cases s.header? i with
    | none => exact agrees_pure none
    | some header =>
      cases hform : header.kind.form? with
      | none =>
        simp only [hform, Option.isNone_none, if_true]
        exact (addToken_agrees header.kind header.flags header.span).bind fun copied =>
          agrees_pure (some copied)
      | some form =>
        simp only [hform, Option.isNone_some, Bool.false_eq_true, if_false]
        cases s.payload? i with
        | none => exact agrees_pure none
        | some payload =>
          refine (Agrees.mapSlotsM (fun slot => ?_) payload).bind fun payload' =>
            (add_agrees header.kind header.flags header.span payload').bind fun copied =>
              agrees_pure (some copied)
          cases slot with
          | none => exact agrees_pure none
          | some child => exact ih child

theorem copy_agrees (i : NodeId) : Agrees fun _ => copy i :=
  agrees_get.bind fun s => copyWithin_agrees (s.size + idBound) i

/-! ### Lowering -/

end Edit
end Settle
