import Settle.Store.Pools

/-! The store: a syntax tree as numbered nodes.

A node is a header (`Header`) and perhaps a payload. The header holds the node's
kind and the place of its payload; which pool that place is in follows from the
kind alone. Form and place together are the node's address (`address?`), and the
payload is what stands there (`payload?`). A node can therefore be given another
kind in place, and what it then carries is whatever stands at its place in the
other pool, or nothing.

Parent links stand beside the headers. Making a node makes it the parent of every
node its slots name (`push`); nothing else is decided about parents here, so a
node whose slot is overwritten keeps a link to where it last stood.

References may name nodes that do not exist, now or ever: a look-up answers
`none`, and nothing is adopted.

A new payload stands where its pool ended. How that length is written down as a place
is left open (`Placing`): as it is (`Placing.exact`), which is meant unless something
else is said, or in a 32-bit word (`Placing.word`), which runs full. -/
namespace Settle

/-- A range of the source text. -/
structure Span where
  start : UInt32
  stop : UInt32
  deriving DecidableEq, Repr

/-- The span of a node that no source text stands behind. -/
def Span.zero : Span := ⟨0, 0⟩

structure Header where
  kind : Kind
  flags : UInt32
  span : Span
  /-- Where the payload stands in its pool. -/
  place : Option Nat
  deriving DecidableEq, Repr

/-- How the length of a pool is written down as the place of what is put at its end. -/
class Placing where
  place : Nat → Option Nat

/-- A place is any number. -/
instance Placing.exact : Placing := ⟨some⟩

@[simp]
theorem Placing.place_exact (length : Nat) : place length = some length := rfl

/-- A place is a 32-bit word: of a length that does not fit the upper part is lost, and the last
word is no place. -/
@[reducible] def Placing.word : Placing where
  place length :=
    if length % UInt32.size + 1 = UInt32.size then none else some (length % UInt32.size)

structure Store where
  headers : Array Header := #[]
  parents : Array Ref := #[]
  pools : Pools := {}
  deriving DecidableEq, Repr

/-- Operations that change a store. -/
abbrev Edit := StateM Store

namespace Store

/-! ### Looking -/

/-- The number of nodes, and the id of the next one. -/
def size (s : Store) : Nat := s.headers.size

def header? (s : Store) (i : NodeId) : Option Header := s.headers[i]?

def kind? (s : Store) (i : NodeId) : Option Kind := (s.header? i).map Header.kind

def parent (s : Store) (i : NodeId) : Ref := s.parents[i]?.join

/-- The pool and the place in it where a node's payload is looked for. -/
def address? (s : Store) (i : NodeId) : Option (Form × Nat) := do
  let header ← s.header? i
  let form ← header.kind.form?
  let place ← header.place
  return (form, place)

/-- What stands at a node's address. -/
def payload? (s : Store) (i : NodeId) : Option (Payload Ref) :=
  (s.address? i).bind fun address => s.pools.get? address.1 address.2

/-- The nodes a node's slots name, in source order. They need not exist. -/
def children (s : Store) (i : NodeId) : List NodeId :=
  match s.payload? i with
  | some payload => payload.slots.filterMap id
  | none => []

/-- The text of an identifier. -/
def text? (s : Store) (i : NodeId) : Option String :=
  match s.payload? i with
  | some (.identifier text) => some text
  | _ => none

/-- Every identifier text that the store holds. -/
def identifierTexts (s : Store) : List String := s.pools.identifiers.toList

/-! ### Making nodes -/

/-- Points the named node to its parent, if it exists. -/
def link (parents : Array Ref) (parent : NodeId) : Ref → Array Ref
  | some child => parents.setIfInBounds child (some parent)
  | none => parents

/-- Makes `parent` the parent of the nodes that `slots` name. -/
def adopt (s : Store) (parent : NodeId) (slots : List Ref) : Store :=
  {s with parents := slots.foldl (link · parent) s.parents}

/-- A new node without payload. -/
def pushToken (s : Store) (kind : Kind) (flags : UInt32) (span : Span) : Store :=
  {s with
    headers := s.headers.push ⟨kind, flags, span, none⟩
    parents := s.parents.push none}

/-- A new node with a payload, which becomes the parent of the nodes its slots name.
The payload goes to the pool of its own form, whatever the kind. -/
def push [Placing] (s : Store) (kind : Kind) (flags : UInt32) (span : Span)
    (payload : Payload Ref) : Store :=
  -- taken before the headers are added to, which can then be done in place
  let i := s.size
  adopt
    {headers := s.headers.push ⟨kind, flags, span, Placing.place (s.pools.size payload.form)⟩
     parents := s.parents.push none
     pools := s.pools.add payload}
    i payload.slots

end Store

namespace Edit
variable [Placing]

def addToken (kind : Kind) (flags : UInt32) (span : Span) : Edit NodeId :=
  modifyGet fun s => (s.size, s.pushToken kind flags span)

def add (kind : Kind) (flags : UInt32) (span : Span) (payload : Payload Ref) : Edit NodeId :=
  modifyGet fun s => (s.size, s.push kind flags span payload)

/-- A node that no source text stands behind. -/
def make (kind : Kind) (payload : Payload Ref) : Edit NodeId :=
  add kind 0 .zero payload

def makeIdentifier (text : String) : Edit NodeId := make .identifier (.identifier text)

def makeCall (callee : Ref) (arguments : List Ref) : Edit NodeId :=
  make .call (.call ⟨callee, arguments⟩)

def makeBlock (statements : List Ref) : Edit NodeId := make .block (.block statements)

def makeReturn (operand : Ref) : Edit NodeId := make .returnStatement (.returnStatement operand)

end Edit

namespace Store

/-! ### What a look-up sees -/

theorem payload?_eq_some_iff {s : Store} {i : NodeId} {payload : Payload Ref} :
    s.payload? i = some payload ↔
      ∃ place, s.address? i = some (payload.form, place) ∧
        s.pools.get? payload.form place = some payload := by
  constructor
  · intro h
    obtain ⟨⟨form, place⟩, hi, hp⟩ := Option.bind_eq_some_iff.mp h
    obtain rfl := Pools.form_of_get? hp
    exact ⟨place, hi, hp⟩
  · rintro ⟨place, hi, hp⟩
    rw [payload?, hi]
    exact hp

@[simp]
theorem headers_adopt (s : Store) (parent : NodeId) (slots : List Ref) :
    (s.adopt parent slots).headers = s.headers := rfl

@[simp]
theorem payload?_adopt (s : Store) (parent : NodeId) (slots : List Ref) (i : NodeId) :
    (s.adopt parent slots).payload? i = s.payload? i := rfl

theorem getElem?_link (parents : Array Ref) (parent : NodeId) (slot : Ref) (i : NodeId) :
    (link parents parent slot)[i]? =
      if slot = some i ∧ i < parents.size then some (some parent) else parents[i]? := by
  cases slot with
  | none => simp [link]
  | some child =>
    rw [link, Array.getElem?_setIfInBounds]
    by_cases h : child = i <;> by_cases hi : i < parents.size <;> simp [h, hi]

theorem size_link (parents : Array Ref) (parent : NodeId) (slot : Ref) :
    (link parents parent slot).size = parents.size := by
  cases slot <;> simp [link]

/-- Exactly the existing nodes that the slots name get the new parent. -/
theorem parent_adopt (s : Store) (parent : NodeId) (slots : List Ref) (i : NodeId) :
    (s.adopt parent slots).parent i =
      if some i ∈ slots ∧ i < s.parents.size then some parent else s.parent i := by
  suffices h : ∀ (slots : List Ref) (parents : Array Ref),
      (slots.foldl (link · parent) parents)[i]? =
        if some i ∈ slots ∧ i < parents.size then some (some parent) else parents[i]? by
    show ((slots.foldl (link · parent) s.parents)[i]?).join = _
    rw [h slots s.parents]
    split <;> rfl
  intro slots
  induction slots with
  | nil => simp
  | cons slot rest ih =>
    intro parents
    rw [List.foldl_cons, ih, size_link, getElem?_link]
    by_cases hi : i < parents.size <;> by_cases hr : some i ∈ rest <;>
      by_cases hs : slot = some i <;> simp [hi, hr, hs, eq_comm]

/-! ### What a look-up sees after a new node -/

@[simp]
theorem size_push [Placing] (s : Store) (kind : Kind) (flags : UInt32) (span : Span)
    (payload : Payload Ref) : (s.push kind flags span payload).size = s.size + 1 := by
  simp [push, size]

@[simp]
theorem size_pushToken (s : Store) (kind : Kind) (flags : UInt32) (span : Span) :
    (s.pushToken kind flags span).size = s.size + 1 := by
  simp [pushToken, size]

theorem header?_push [Placing] (s : Store) (kind : Kind) (flags : UInt32) (span : Span)
    (payload : Payload Ref) (i : NodeId) :
    (s.push kind flags span payload).header? i =
      if i = s.size then some ⟨kind, flags, span, Placing.place (s.pools.size payload.form)⟩
      else s.header? i := by
  show (s.headers.push _)[i]? = _
  rw [Array.getElem?_push]
  rfl

theorem header?_pushToken (s : Store) (kind : Kind) (flags : UInt32) (span : Span) (i : NodeId) :
    (s.pushToken kind flags span).header? i =
      if i = s.size then some ⟨kind, flags, span, none⟩ else s.header? i := by
  show (s.headers.push _)[i]? = _
  rw [Array.getElem?_push]
  rfl

theorem header?_size (s : Store) : s.header? s.size = none := by
  simp [header?, size]

theorem address?_pushToken (s : Store) (kind : Kind) (flags : UInt32) (span : Span) (i : NodeId) :
    (s.pushToken kind flags span).address? i = s.address? i := by
  rw [address?, header?_pushToken, address?]
  split
  · subst i
    cases kind.form? <;> simp [header?_size]
  · rfl

/-- A token carries nothing, and takes nothing from another node. -/
@[simp]
theorem payload?_pushToken (s : Store) (kind : Kind) (flags : UInt32) (span : Span) (i : NodeId) :
    (s.pushToken kind flags span).payload? i = s.payload? i := by
  rw [payload?, address?_pushToken]
  rfl

/-- A node of a fitting kind carries the payload it was made with. -/
theorem payload?_push_self (s : Store) {kind : Kind} (flags : UInt32) (span : Span)
    {payload : Payload Ref} (h : kind.form? = some payload.form) :
    (s.push kind flags span payload).payload? s.size = some payload := by
  refine payload?_eq_some_iff.mpr ⟨s.pools.size payload.form, ?_, ?_⟩
  · rw [address?, header?_push, if_pos rfl]
    simp [h]
  · show (s.pools.add payload).get? _ _ = _
    rw [Pools.get?_add, if_pos ⟨rfl, rfl⟩]

/-- A new node leaves the payloads of the others alone. -/
theorem payload?_push_of_eq_some {s : Store} {i : NodeId} {old : Payload Ref}
    (h : s.payload? i = some old) (kind : Kind) (flags : UInt32) (span : Span)
    (payload : Payload Ref) : (s.push kind flags span payload).payload? i = some old := by
  obtain ⟨place, hi, hp⟩ := payload?_eq_some_iff.mp h
  have hlt : place < s.pools.size old.form := Pools.get?_isSome_iff.mp (by rw [hp]; rfl)
  have hne : i ≠ s.size := by
    rintro rfl
    simp [address?, header?_size] at hi
  refine payload?_eq_some_iff.mpr ⟨place, ?_, ?_⟩
  · rw [address?, header?_push, if_neg hne]
    exact hi
  · show (s.pools.add payload).get? _ _ = _
    rw [Pools.get?_add, if_neg (fun hc => by omega)]
    exact hp

end Store
end Settle
