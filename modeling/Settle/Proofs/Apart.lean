import Settle.Proofs.Places

/-! Payloads stand apart.

A header names a place, and the kind of the node says in which pool. Nothing in that keeps
two nodes from naming the same place of the same pool, or one node from naming a place past
the end of a pool, where the next payload will be put. `Store.Placed` says that neither
happens. It is less than `Store.Sound`: a token may be of a kind that carries a payload, and
slots may name what does not exist.

`Store.Built` is how a store comes about: from nothing, by making nodes, changing bodies
and statement lists, turning nodes into suspensions, and copying. Where a place is any
number, every step keeps payloads apart (`Built.placed`), so that what is written at one
node is seen at that node alone (`Placed.revise`). Where it is a word, that is so until a
pool has run full (`Built.of_words`). No number of nodes keeps it from running full, since
a node that becomes a suspension again and again leaves a payload behind each time
(`worn`). -/
namespace Settle

namespace Store
variable {s s' : Store} {i j : NodeId}

/-- Every payload a node names is there, and no other node names it. -/
structure Placed (s : Store) : Prop where
  aligned : s.parents.size = s.size
  within : ∀ i header place, s.header? i = some header → header.place = some place →
    ∃ form, header.kind.form? = some form ∧ place < s.pools.size form
  unshared : ∀ i j address, s.address? i = some address → s.address? j = some address → i = j

theorem Placed.place_lt (h : s.Placed) {address : Form × Nat} (hi : s.address? i = some address) :
    address.2 < s.pools.size address.1 := by
  obtain ⟨header, hheader, hform, hplace⟩ := address?_eq_some_iff.mp hi
  obtain ⟨form, hform', hlt⟩ := h.within i header address.2 hheader hplace
  rw [hform] at hform'
  obtain rfl := Option.some.inj hform'
  exact hlt

theorem placed_empty : ({} : Store).Placed where
  aligned := rfl
  within := fun i header place h => by simp [header?] at h
  unshared := fun i j address h => by simp [address?, header?] at h

/-! ### One step -/

/-- Where headers stay and no pool shrinks or grows, payloads stay apart. -/
theorem Placed.of_headers_eq (h : s.Placed) (hheaders : s'.headers = s.headers)
    (hpools : ∀ form, s'.pools.size form = s.pools.size form)
    (hparents : s'.parents.size = s.parents.size) : s'.Placed where
  aligned := by rw [hparents, h.aligned, size, size, hheaders]
  within := by
    simp only [header?, hheaders, hpools]
    exact h.within
  unshared := by
    simp only [address?, header?, hheaders]
    exact h.unshared

theorem Placed.adopt (h : s.Placed) (parent : NodeId) (slots : List Ref) :
    (s.adopt parent slots).Placed :=
  h.of_headers_eq rfl (fun _ => rfl) (size_parents_adopt s parent slots)

theorem Placed.write (h : s.Placed) (i : NodeId) (payload : Payload Ref) :
    (s.write i payload).Placed := by
  refine h.of_headers_eq (headers_write s i payload) (fun form => ?_) (by rw [parents_write])
  unfold Store.write
  split
  · exact Pools.size_set _ _ _ _
  · rfl

theorem Placed.pushToken (h : s.Placed) (kind : Kind) (flags : UInt32) (span : Span) :
    (s.pushToken kind flags span).Placed where
  aligned := size_parents_pushToken h.aligned kind flags span
  within := by
    intro i header place hheader hplace
    rw [header?_pushToken] at hheader
    split at hheader
    · obtain rfl := Option.some.inj hheader
      cases hplace
    · exact h.within i header place hheader hplace
  unshared := by
    simp only [address?_pushToken]
    exact h.unshared

/-- The end of a pool is nobody's address. -/
theorem Placed.address?_ne (h : s.Placed) (form : Form) (i : NodeId) :
    s.address? i ≠ some (form, s.pools.size form) :=
  fun hi => Nat.lt_irrefl _ (h.place_lt hi)

/-- Where a payload is added at the end of its pool and one node gets its place, payloads stay
apart. -/
theorem Placed.of_added (h : s.Placed) (payload : Payload Ref)
    (hparents : s'.parents.size = s'.size) (hpools : s'.pools = s.pools.add payload)
    (hself : ∀ header, s'.header? i = some header →
      header.kind.form? = some payload.form ∧ header.place = some (s.pools.size payload.form))
    (hother : ∀ j, j ≠ i → s'.header? j = s.header? j)
    (haddress : ∀ j, s'.address? j =
      if j = i then some (payload.form, s.pools.size payload.form) else s.address? j) :
    s'.Placed := by
  refine ⟨hparents, fun j header place hheader hplace => ?_,
    unshared_of_fresh h.unshared haddress (h.address?_ne payload.form)⟩
  rw [hpools]
  by_cases hj : j = i
  · obtain ⟨hform, hend⟩ := hself header (hj ▸ hheader)
    rw [hend] at hplace
    obtain rfl := Option.some.inj hplace
    exact ⟨payload.form, hform, by simp⟩
  · rw [hother j hj] at hheader
    obtain ⟨form, hform, hlt⟩ := h.within j header place hheader hplace
    exact ⟨form, hform, by rw [Pools.size_add]; omega⟩

theorem Placed.push (h : s.Placed) {kind : Kind} (flags : UInt32) (span : Span)
    {payload : Payload Ref} (hk : kind.form? = some payload.form) :
    (s.push kind flags span payload).Placed := by
  refine h.of_added (i := s.size) payload (size_parents_push h.aligned kind flags span payload) rfl
    (fun header hheader => ?_) (fun j hj => ?_) (address?_push_of_fits s flags span hk)
  · rw [header?_push, if_pos rfl] at hheader
    obtain rfl := Option.some.inj hheader
    exact ⟨hk, rfl⟩
  · rw [header?_push, if_neg hj]

theorem Placed.suspended (h : s.Placed) (hi : i < s.size) {kind : Kind}
    (hk : kind.form? = some .suspension) (parts : SuspensionParts Ref) :
    (s.suspended i kind parts).Placed := by
  refine h.of_added (i := i) (.suspension parts) ?_ rfl (fun header hheader => ?_) (fun j hj => ?_)
    (address?_suspended hi hk parts)
  · show s.parents.size = (s.headers.modify i _).size
    rw [Array.size_modify]
    exact h.aligned
  · rw [header?_suspended, if_pos rfl] at hheader
    obtain ⟨old, _, rfl⟩ := Option.map_eq_some_iff.mp hheader
    exact ⟨hk, rfl⟩
  · rw [header?_suspended, if_neg hj]

end Store

namespace Edit
variable {s : Store}

open Store

/-- A change in place, after which the node becomes the parent of what it got. -/
theorem reviseAdopting_placed (h : s.Placed) (i : NodeId)
    (change : Payload Ref → Option (Payload Ref)) (child : Ref) :
    ((do
      let done ← revise i change
      if done then adopt i child
      return done) s).2.Placed := by
  cases hnew : (s.payload? i).bind change with
  | none =>
    rw [bind_run (revise_of_none hnew)]
    exact h
  | some new =>
    rw [bind_run (revise_of_some hnew)]
    exact (h.write i new).adopt i [child]

theorem setBody_placed (h : s.Placed) (i : NodeId) (body : Ref) : (setBody i body s).2.Placed :=
  reviseAdopting_placed h i _ body

theorem insertStatement_placed (h : s.Placed) (i : NodeId) (position : Nat) (statement : Ref) :
    (insertStatement i position statement s).2.Placed :=
  reviseAdopting_placed h i _ statement

theorem becomeSuspension_placed (h : s.Placed) (i : NodeId) (kind : SuspensionKind)
    (parts : SuspensionParts Ref) :
    (becomeSuspension i (.suspension kind) parts s).2.Placed := by
  by_cases hi : i < s.size
  · rw [becomeSuspension_eq hi]
    exact (h.suspended hi rfl parts).adopt i [parts.operand]
  · rw [becomeSuspension_of_le (Nat.le_of_not_lt hi)]
    exact h

theorem copy_placed (h : s.Placed) (i : NodeId) : (copy i s).2.Placed := by
  rw [copy_run]
  exact copyWithin_keeps (fun _ kind flags span hs _ => hs.pushToken kind flags span)
    (fun _ _ flags span _ hs hk => hs.push flags span hk) _ i h

end Edit

/-- A payload with other statements, if it is one that has a list of them. -/
def Payload.withStatements (statements : List Ref) : Payload Ref → Payload Ref
  | .sourceFile parts => .sourceFile {parts with statements}
  | .block _ => .block statements
  | payload => payload

namespace Store
variable {s : Store}

/-! ### A whole run -/

/-- Stores that come about from nothing. Kinds fit the payloads that nodes are made with, and what
is copied does not contain itself; a token may be of any kind, and slots may name anything. -/
inductive Built [Placing] : Store → Prop where
  | empty : Built {}
  | token {s : Store} (h : Built s) (kind : Kind) (flags : UInt32) (span : Span) :
    Built (s.pushToken kind flags span)
  | node {s : Store} (h : Built s) (kind : Kind) (flags : UInt32) (span : Span)
    (payload : Payload Ref) (fits : kind.form? = some payload.form) :
    Built (s.push kind flags span payload)
  | setBody {s : Store} (h : Built s) (i : NodeId) (body : Ref) : Built (Edit.setBody i body s).2
  | insertStatement {s : Store} (h : Built s) (i : NodeId) (position : Nat) (statement : Ref) :
    Built (Edit.insertStatement i position statement s).2
  | becomeSuspension {s : Store} (h : Built s) (i : NodeId) (kind : SuspensionKind)
    (parts : SuspensionParts Ref) : Built (Edit.becomeSuspension i (.suspension kind) parts s).2
  | copy {s : Store} (h : Built s) (i : NodeId) (acyclic : s.Acyclic i) : Built (Edit.copy i s).2

theorem Built.placed (h : s.Built) : s.Placed := by
  induction h with
  | empty => exact placed_empty
  | token _ kind flags span ih => exact ih.pushToken kind flags span
  | node _ _ flags span _ fits ih => exact ih.push flags span fits
  | setBody _ i body ih => exact Edit.setBody_placed ih i body
  | insertStatement _ i position statement ih =>
    exact Edit.insertStatement_placed ih i position statement
  | becomeSuspension _ i kind parts ih => exact Edit.becomeSuspension_placed ih i kind parts
  | copy _ i _ ih => exact Edit.copy_placed ih i

/-- A store that fits has come about in the same way, whichever way places are written. -/
theorem Built.of_words (h : @Built .word s) (hfits : s.Fits) : s.Built := by
  induction h with
  | empty => exact .empty
  | @token s _ kind flags span ih =>
    have hwithin := (Edit.addToken_agrees kind flags span).grows .word (s := s) rfl
    exact .token (ih (hfits.of_within hwithin)) kind flags span
  | @node s _ kind flags span payload fits ih =>
    have hagrees := Edit.add_agrees kind flags span payload
    have hsame : s.push kind flags span payload = @push .word s kind flags span payload :=
      congrArg Prod.snd (hagrees.same .word .exact rfl hfits)
    have hbuilt :=
      Built.node (ih (hfits.of_within (hagrees.grows .word rfl))) kind flags span payload fits
    rwa [hsame] at hbuilt
  | @setBody s _ i body ih =>
    have hwithin := (Edit.setBody_agrees i body).grows .word (s := s) rfl
    exact .setBody (ih (hfits.of_within hwithin)) i body
  | @insertStatement s _ i position statement ih =>
    have hwithin := (Edit.insertStatement_agrees i position statement).grows .word (s := s) rfl
    exact .insertStatement (ih (hfits.of_within hwithin)) i position statement
  | @becomeSuspension s _ i kind parts ih =>
    rcases hrun : @Edit.becomeSuspension .word i (.suspension kind) parts s with ⟨done, s'⟩
    rw [hrun] at hfits
    have hagrees := Edit.becomeSuspension_agrees i (.suspension kind) parts
    have hbefore := ih (hfits.of_within (hagrees.grows .word hrun))
    have hbuilt := Built.becomeSuspension hbefore i kind parts
    rwa [hagrees.same .word .exact hrun hfits] at hbuilt
  | @copy s _ i acyclic ih =>
    rcases hrun : @Edit.copy .word i s with ⟨ref, s'⟩
    rw [hrun] at hfits
    have hbefore := ih (hfits.of_within ((Edit.copy_agrees i).grows .word hrun))
    have hbuilt := Built.copy hbefore i acyclic
    rwa [(Edit.copy_agrees i).same .word .exact hrun hfits] at hbuilt

/-! ### What a change in place is seen by -/

/-- The later store shows `payload` at node `i`; every other node carries what it carried, and has the
children that it had. -/
structure ChangedAt (s s' : Store) (i : NodeId) (payload : Option (Payload Ref)) : Prop where
  self : s'.payload? i = payload
  payloads : ∀ j, j ≠ i → s'.payload? j = s.payload? j
  children : ∀ j, j ≠ i → s'.children j = s.children j

theorem Placed.revise (h : s.Placed) (i : NodeId) {change : Payload Ref → Option (Payload Ref)}
    {g : Payload Ref → Payload Ref} (hg : ∀ old, (change old).getD old = g old)
    (hform : ∀ old, (g old).form = old.form) :
    s.ChangedAt (Edit.revise i change s).2 i ((s.payload? i).map g) := by
  cases hnew : (s.payload? i).bind change with
  | none =>
    rw [Edit.revise_of_none hnew]
    refine ⟨?_, fun _ _ => rfl, fun _ _ => rfl⟩
    cases hold : s.payload? i with
    | none => rfl
    | some old =>
      rw [hold, Option.bind_some] at hnew
      rw [Option.map_some, ← hg old, hnew, Option.getD_none]
  | some new =>
    obtain ⟨old, hold, hchange⟩ := Option.bind_eq_some_iff.mp hnew
    have hgold : g old = new := by rw [← hg old, hchange, Option.getD_some]
    have hlook := payload?_write_of_unshared h.unshared hold (hgold ▸ hform old)
    rw [Edit.revise_of_some hnew]
    refine ⟨?_, fun j hj => by rw [hlook, if_neg hj], fun j hj => ?_⟩
    · rw [hlook, if_pos rfl, hold, Option.map_some, hgold]
    · rw [Store.children, hlook, if_neg hj, Store.children]

/-- **Payloads are never shared**: in a store that has come about from nothing, with places that are
words, and that words are enough for, every payload stands where one node alone looks for it. What
is written over the payload of a node, or over its statements, is seen at that node and at no
other. -/
theorem built_payloads_apart (h : @Built .word s) (hfits : s.Fits) :
    s.Placed ∧
      (∀ i payload, s.ChangedAt (Edit.overwrite i payload s).2 i
        ((s.payload? i).map fun old => if old.form = payload.form then payload else old)) ∧
      ∀ i statements, s.ChangedAt (Edit.setStatements i statements s).2 i
        ((s.payload? i).map (·.withStatements statements)) := by
  have hplaced := (h.of_words hfits).placed
  refine ⟨hplaced, fun i payload => ?_, fun i statements => ?_⟩
  · refine hplaced.revise i (fun old => ?_) fun old => ?_
    · split <;> rfl
    · split
      · rename_i hform
        exact hform.symm
      · rfl
  · refine hplaced.revise i (fun old => ?_) fun old => ?_
    · cases old <;> rfl
    · cases old <;> rfl

/-- A token of a kind that should carry something, an `await` and a block with a slot that names no
node; then the function gets the block for its body, the token is put into the block and becomes a
`yield`, and the function is copied. -/
def jumble : Store :=
  letI := Placing.word
  let made := ({} : Store)
    |>.push .identifier 0 .zero (.identifier "x")
    |>.pushToken .identifier 0 .zero
    |>.push (.suspension .await) 0 .zero (.suspension ⟨some 0, false⟩)
    |>.push .block 0 .zero (.block [some 2, some 90])
    |>.push (.function .arrow) 0 .zero (.function ⟨none, [], some 0, true, false⟩)
  let placed := (Edit.insertStatement 3 0 (some 1) (Edit.setBody 4 (some 3) made).2).2
  (Edit.copy 4 (Edit.becomeSuspension 1 (.suspension .yield) ⟨some 0, false⟩ placed).2).2

theorem built_jumble : @Built .word jumble :=
  letI := Placing.word
  .copy (.becomeSuspension (.insertStatement (.setBody (.node (.node (.node (.token (.node .empty
    _ _ _ _ rfl) _ _ _) _ _ _ _ rfl) _ _ _ _ rfl) _ _ _ _ rfl) _ _) _ _ _) _ _ _) _
    (acyclic_of_lt (by decide +kernel) _)

theorem fits_jumble : jumble.Fits where
  nodes := by decide +kernel
  pools := fun form => by cases form <;> decide +kernel

theorem built_payloads_apart_jumble :
    @Built .word jumble ∧ jumble.Fits ∧ jumble.Placed ∧
      (∀ i payload, jumble.ChangedAt (Edit.overwrite i payload jumble).2 i
        ((jumble.payload? i).map fun old => if old.form = payload.form then payload else old)) ∧
      ∀ i statements, jumble.ChangedAt (Edit.setStatements i statements jumble).2 i
        ((jumble.payload? i).map (·.withStatements statements)) :=
  ⟨built_jumble, fits_jumble, built_payloads_apart built_jumble fits_jumble⟩

/-! ### A pool that runs full -/

/-- Two times `await x`, of which the second one is made a `yield x` so many times. -/
def worn : Nat → Store
  | 0 =>
    letI := Placing.word
    ({} : Store)
      |>.push .identifier 0 .zero (.identifier "x")
      |>.push (.suspension .await) 0 .zero (.suspension ⟨some 0, false⟩)
      |>.push (.suspension .await) 0 .zero (.suspension ⟨some 0, false⟩)
  | n + 1 => (@Edit.becomeSuspension .word 2 (.suspension .yield) ⟨some 0, false⟩ (worn n)).2

theorem built_worn (n : Nat) : @Built .word (worn n) := by
  let _ := Placing.word
  induction n with
  | zero => exact .node (.node (.node .empty _ _ _ _ rfl) _ _ _ _ rfl) _ _ _ _ rfl
  | succ n ih => exact .becomeSuspension ih 2 .yield ⟨some 0, false⟩

theorem size_worn (n : Nat) : (worn n).size = 3 ∧ (worn n).pools.size .suspension = n + 2 := by
  induction n with
  | zero => exact ⟨rfl, rfl⟩
  | succ n ih =>
    rw [worn, @Edit.becomeSuspension_eq _ .word 2 (by rw [ih.1]; decide)]
    constructor
    · show ((worn n).headers.modify 2 _).size = 3
      rw [Array.size_modify]
      exact ih.1
    · show ((worn n).pools.add _).size .suspension = n + 1 + 2
      rw [Pools.size_add, ih.2]
      rfl

theorem header?_worn_succ (n : Nat) (j : NodeId) : (worn (n + 1)).header? j =
    if j = 2 then ((worn n).header? j).map fun header =>
      {header with kind := .suspension .yield, place := @Placing.place .word (n + 2)}
    else (worn n).header? j := by
  rw [worn, @Edit.becomeSuspension_eq _ .word 2 (by rw [(size_worn n).1]; decide)]
  exact (@header?_suspended .word (worn n) 2 _ _ j).trans (by rw [(size_worn n).2])

/-- The first `await` stays where it is, the second one goes from place to place. -/
theorem header?_worn (n : Nat) :
    (worn n).header? 1 = some ⟨.suspension .await, 0, .zero, some 0⟩ ∧
      ∃ header, (worn n).header? 2 = some header ∧
        header.kind.form? = some .suspension ∧ header.place = @Placing.place .word (n + 1) := by
  induction n with
  | zero => exact ⟨rfl, _, rfl, rfl, rfl⟩
  | succ n ih =>
    obtain ⟨hfirst, header, hsecond, _⟩ := ih
    rw [header?_worn_succ, header?_worn_succ, if_neg (by decide), if_pos rfl, hsecond]
    exact ⟨hfirst, _, rfl, rfl, rfl⟩

/-- **Payloads can meet where a pool has run full**, however few nodes there are. -/
theorem worn_payloads_meet :
    @Built .word (worn (UInt32.size - 1)) ∧ (worn (UInt32.size - 1)).size = 3 ∧
      (worn (UInt32.size - 1)).address? 1 = some (.suspension, 0) ∧
      (worn (UInt32.size - 1)).address? 2 = some (.suspension, 0) := by
  obtain ⟨hfirst, header, hsecond, hform, hplace⟩ := header?_worn (UInt32.size - 1)
  have hzero : @Placing.place .word (UInt32.size - 1 + 1) = some 0 := by decide
  rw [hzero] at hplace
  exact ⟨built_worn _, (size_worn _).1, address?_eq_some_iff.mpr ⟨_, hfirst, rfl, rfl⟩,
    address?_eq_some_iff.mpr ⟨header, hsecond, hform, hplace⟩⟩

end Store
end Settle
