import Settle.Proofs.Wrapped

/-! What `this` and `arguments` stand for.

Both belong to the nearest function around them that is not an arrow. Lowering puts
a generator between a body and its function, and the generator binds both anew; the
call that starts it hands them on. `Resolves` follows this chain: from a generator
made by the pass to the call that starts it, from what is passed there to the next
function around, until a function is met that was there before. Every `this` and
every `arguments` of a program leads to the function that it belonged to
(`settle_keeps_binders`).

That depends on one decision. An arrow hands on `arguments` only if a scan of its body
finds them, so the scan has to see all those that belong to a function around the
arrow. -/
namespace Settle

/-! ### Places in a tree -/

/-- What is known of a place from the nodes above it. -/
structure Site where
  /-- The nearest function that is not an arrow; the file has no id here. -/
  binder : Ref
  /-- Whether the place is in the name of a property access. -/
  inName : Bool

/-- The place of a whole file. -/
def Site.file : Site := ⟨none, false⟩

/-- The place of a slot below a node. A property access has its name in the second slot. -/
def Site.below (site : Site) (tag : NodeId) (mark : Mark) (k : Nat) : Site where
  binder := if mark.kind.bindsArguments then some tag else site.binder
  inName := site.inName || (mark.detail == some (.plain .access) && k != 0)

/-- In a tree that stands at a site, another one stands at a site below. -/
inductive Occurs : Site → Tree NodeId → Site → Tree NodeId → Prop where
  | top {site : Site} {t : Tree NodeId} : Occurs site t site t
  | down {site site' : Site} {tag : NodeId} {mark : Mark} {slots : List (Tree NodeId)} {k : Nat}
      {t u : Tree NodeId} (slot : slots[k]? = some t)
      (rest : Occurs (site.below tag mark k) t site' u) :
      Occurs site (.node tag mark slots) site' u

theorem Occurs.trans {site₁ site₂ site₃ : Site} {t₁ t₂ t₃ : Tree NodeId}
    (h : Occurs site₁ t₁ site₂ t₂) (h' : Occurs site₂ t₂ site₃ t₃) : Occurs site₁ t₁ site₃ t₃ := by
  induction h with
  | top => exact h'
  | down slot _ ih => exact .down slot (ih h')

theorem Occurs.slot {site site' : Site} {whole t : Tree NodeId} {tag : NodeId} {mark : Mark}
    {slots : List (Tree NodeId)} {k : Nat} (h : Occurs site whole site' (.node tag mark slots))
    (hk : slots[k]? = some t) : Occurs site whole (site'.below tag mark k) t :=
  h.trans (.down hk .top)

/-! ### Binders -/

/-- What a function binds without naming it. -/
inductive Use where
  | this
  | arguments

/-- A node that reads what is bound. -/
def Use.Reads : Use → Mark → Prop
  | .this, mark => mark.kind = .thisKeyword
  | .arguments, mark => mark.kind = .identifier ∧ mark.detail = some (.identifier "arguments")

/-- Whether such a node counts at a site: as the name of a property, `arguments` is but a name. -/
def Use.At : Use → Site → Prop
  | .this, _ => True
  | .arguments, site => site.inName = false

/-- `localName(function* () { … }).method(passed)`, with the generator `g`. -/
def Tree.Starts (localName : String) (g : NodeId) (method : String) (passed : List (Tree NodeId))
    (t : Tree NodeId) : Prop :=
  ∃ invoke callee wrapped reference name body,
    t = .made invoke .call (.call ⟨.made callee .access (.access
      ⟨.made wrapped .call (.call ⟨.identifier reference localName,
        [.made g (.function .expression) (.function ⟨.empty, [], body, false, true⟩)]⟩),
       .identifier name method⟩), passed⟩)

/-- What a method of functions hands to the function, and by which of the trees passed. -/
inductive Use.Passed : Use → String → List (Tree NodeId) → Tree NodeId → Prop where
  | this {method : String} {i : NodeId} {rest : List (Tree NodeId)}
      (h : method = "apply" ∨ method = "call") : Passed .this method (.this i :: rest) (.this i)
  | arguments {i j : NodeId} :
      Passed .arguments "apply" [.this i, .identifier j "arguments"] (.identifier j "arguments")

/-- From one binder in a tree to another: a function from before is its own binder, and a generator
made since, with an id from `base` on, is started by a call that passes what the next function
around the call binds. -/
inductive Resolves (base : Nat) (localName : String) (whole : Tree NodeId) (use : Use) :
    Ref → Ref → Prop where
  | here {binder : Ref} (old : ∀ f : Nat, binder = some f → f < base) :
      Resolves base localName whole use binder binder
  | through {g : NodeId} {site site' : Site} {invoke token : Tree NodeId} {method : String}
      {passed : List (Tree NodeId)} {binder : Ref} (new : base ≤ g)
      (place : Occurs .file whole site invoke) (starts : invoke.Starts localName g method passed)
      (passes : use.Passed method passed token) (inside : Occurs site invoke site' token)
      (next : Resolves base localName whole use site'.binder binder) :
      Resolves base localName whole use (some g) binder

section Marks
variable {use : Use} {mark : Mark}

/-- Making a body pause a generator leaves what it reads alone. -/
theorem Use.Reads.byYield (h : use.Reads mark) : use.Reads mark.byYield := by
  cases use with
  | this =>
    have hkind : mark.kind = .thisKeyword := h
    have hne : mark.kind ≠ .suspension .await := by simp [hkind]
    rw [Mark.byYield, if_neg hne]
    split <;> exact hkind
  | arguments =>
    obtain ⟨hkind, hdetail⟩ := h
    have hne : mark.kind ≠ .suspension .await := by simp [hkind]
    rw [Mark.byYield, if_neg hne, if_neg (by simp [hdetail])]
    exact ⟨hkind, hdetail⟩

theorem Use.Reads.plain (h : use.Reads mark) : use.Reads mark.plain := by
  cases use with
  | this => exact mark.kind_plain.trans h
  | arguments =>
    obtain ⟨hkind, hdetail⟩ := h
    rw [Mark.plain, hdetail]
    exact ⟨hkind, hdetail⟩

theorem bindsArguments_byYield (mark : Mark) :
    mark.byYield.kind.bindsArguments = mark.kind.bindsArguments := by
  unfold Mark.byYield
  split
  · rename_i h
    simp [h, Kind.bindsArguments]
  · split <;> rfl

end Marks

/-! ### What is seen from a site -/

/-- Whether a tree may read what the functions around it bind. -/
def Use.Seen {α : Type} : Use → Tree α → Prop
  | .this, _ => True
  | .arguments, t => t.mentionsArguments = true

section Seen
variable {use : Use} {site : Site} {tag : NodeId} {mark : Mark} {slots : List (Tree NodeId)}
  {k : Nat} {t : Tree NodeId}

theorem Use.Reads.seen (h : use.Reads mark) : use.Seen (.node tag mark slots) := by
  cases use with
  | this => trivial
  | arguments =>
    obtain ⟨hkind, hdetail⟩ := h
    have hbinds : mark.kind.bindsArguments = false := by rw [hkind]; rfl
    simp [Use.Seen, Tree.mentionsArguments, hbinds, hdetail]

theorem Use.At.of_below (h : use.At (site.below tag mark k)) : use.At site := by
  cases use with
  | this => trivial
  | arguments => exact (Bool.or_eq_false_iff.mp h).1

/-- **The scan for `arguments` is complete**: it sees through everything that does not bind them,
and passes over nothing but names. -/
theorem Use.Seen.node (h : use.Seen t) (hbinds : mark.kind.bindsArguments = false)
    (hk : slots[k]? = some t) (hat : use.At (site.below tag mark k)) :
    use.Seen (.node tag mark slots) := by
  cases use with
  | this => trivial
  | arguments =>
    have hname := (Bool.or_eq_false_iff.mp hat).2
    have hseen : t.mentionsArguments = true := h
    show Tree.mentionsArguments _ = true
    rw [Tree.mentionsArguments, hbinds, Tree.mentionsAny_eq]
    by_cases haccess : mark.detail = some (.plain .access)
    · obtain rfl : k = 0 := by simpa [haccess] using hname
      cases slots with
      | nil => cases hk
      | cons first rest =>
        obtain rfl := Option.some.inj hk
        simp [haccess, Tree.mentionsFirst, hseen]
    · have hany : slots.any Tree.mentionsArguments = true :=
        List.any_eq_true.mpr ⟨t, List.mem_of_getElem? hk, hseen⟩
      simp [haccess, hany]

end Seen

/-! ### From a tree to what becomes of it -/

section Wrapped
variable {base : Nat} {localName : String} {whole : Tree NodeId} {site site' : Site}

/-- What a tree at `site` may read is had at `site'` in what becomes of the whole. -/
def Served (base : Nat) (localName : String) (whole : Tree NodeId) (site site' : Site)
    (t : Tree NodeId) : Prop :=
  ∀ use : Use, use.At site → use.Seen t →
    Resolves base localName whole use site'.binder site.binder

/-- What a tree at `site` reads is still read in what becomes of the whole, from the same
function. -/
def Kept (base : Nat) (localName : String) (whole : Tree NodeId) (site : Site) (t : Tree NodeId) :
    Prop :=
  ∀ (use : Use) (site₁ : Site) (i : NodeId) (mark : Mark) (slots : List (Tree NodeId)),
    Occurs site t site₁ (.node i mark slots) → use.Reads mark → use.At site₁ →
      ∃ site₁' mark' slots', Occurs .file whole site₁' (.node i mark' slots') ∧ use.Reads mark' ∧
        Resolves base localName whole use site₁'.binder site₁.binder

theorem Served.slot {i : NodeId} {mark mark' : Mark} {slots : List (Tree NodeId)} {k k' : Nat}
    {t : Tree NodeId} (h : Served base localName whole site site' (.node i mark slots))
    (hi : i < base) (hkind : mark'.kind.bindsArguments = mark.kind.bindsArguments)
    (hk : slots[k]? = some t) :
    Served base localName whole (site.below i mark k) (site'.below i mark' k') t := by
  intro use hat hseen
  cases hbinds : mark.kind.bindsArguments with
  | true =>
    simp only [Site.below, hkind, hbinds, if_true]
    exact .here fun f hf => (Option.some.inj hf) ▸ hi
  | false =>
    simp only [Site.below, hkind, hbinds, Bool.false_eq_true, if_false]
    exact h use hat.of_below (hseen.node hbinds hk hat)

/-- A node with its slots is kept if its slots are. -/
theorem Kept.node {i : NodeId} {mark mark' : Mark} {slots slots' : List (Tree NodeId)}
    (h : Served base localName whole site site' (.node i mark slots))
    (hplace : Occurs .file whole site' (.node i mark' slots'))
    (hreads : ∀ use : Use, use.Reads mark → use.Reads mark')
    (hslots : ∀ k t, slots[k]? = some t → Kept base localName whole (site.below i mark k) t) :
    Kept base localName whole site (.node i mark slots) := by
  intro use site₁ j mark₁ slots₁ hoccurs hread hat
  cases hoccurs with
  | top => exact ⟨site', mark', slots', hplace, hreads use hread, h use hat hread.seen⟩
  | down slot rest => exact hslots _ _ slot use site₁ j mark₁ slots₁ rest hread hat

/-- A new node that is no function stands between nothing and its binder. -/
theorem Occurs.of_made {tag : NodeId} {kind : Kind} {payload : Payload (Tree NodeId)} {k : Nat}
    {t : Tree NodeId} (h : Occurs .file whole site' (.made tag kind payload))
    (hkind : kind.bindsArguments = false) (hk : payload.slots[k]? = some t) :
    ∃ site₁, site₁.binder = site'.binder ∧ Occurs .file whole site₁ t := by
  refine ⟨_, ?_, h.slot hk⟩
  simp [Site.below, Mark.made, hkind]

/-- Making a block of a body moves it, but not to another function. -/
theorem Occurs.of_asBlock {forBlock : Nat → NodeId} {body : Tree NodeId}
    (h : Occurs .file whole site' (body.asBlock forBlock)) :
    ∃ site₁, site₁.binder = site'.binder ∧ (body ≠ .empty → Occurs .file whole site₁ body) := by
  cases body with
  | empty => exact ⟨site', rfl, fun hne => absurd rfl hne⟩
  | node i mark slots =>
    by_cases hblock : mark.kind = .block
    · rw [Tree.asBlock, if_pos hblock] at h
      exact ⟨site', rfl, fun _ => h⟩
    · rw [Tree.asBlock, if_neg hblock] at h
      obtain ⟨site₁, hsite₁, hreturn⟩ := h.of_made (k := 0) rfl rfl
      obtain ⟨site₂, hsite₂, hbody⟩ := hreturn.of_made (k := 0) rfl rfl
      exact ⟨site₂, hsite₂.trans hsite₁, fun _ => hbody⟩

/-- **A trampoline hands on what its body reads.** The body stands below the new generator, and the
call around the generator passes `this`, and `arguments` if it is to forward them. -/
theorem Occurs.of_trampoline {fresh : Nat → NodeId} {reference : NodeId} {body : Tree NodeId}
    {forwards : Bool} (h : Occurs .file whole site' (.trampoline fresh
      (.identifier reference localName) body forwards)) (hnew : base ≤ fresh 0) :
    ∃ site₁, site₁.binder = some (fresh 0) ∧ Occurs .file whole site₁ body ∧
      ∀ (use : Use) (binder : Ref), (use = .arguments → forwards = true) →
        Resolves base localName whole use site'.binder binder →
          Resolves base localName whole use (some (fresh 0)) binder := by
  obtain ⟨site₁, hsite₁, hreturn⟩ := Occurs.of_made h (k := 0) rfl rfl
  obtain ⟨site₂, hsite₂, hinvoke⟩ := hreturn.of_made (k := 0) rfl rfl
  obtain ⟨_, _, hcallee⟩ := hinvoke.of_made (k := 0) rfl rfl
  obtain ⟨_, _, hwrapped⟩ := hcallee.of_made (k := 0) rfl rfl
  obtain ⟨_, _, hgenerator⟩ := hwrapped.of_made (k := 1) rfl rfl
  refine ⟨_, rfl, hgenerator.slot (k := 1) rfl, fun use binder hforwards hnext => ?_⟩
  rw [← hsite₁, ← hsite₂] at hnext
  cases use with
  | this =>
    refine .through hnew hinvoke ⟨_, _, _, _, _, _, rfl⟩ (.this ?_) (.down (k := 1) rfl .top) hnext
    cases forwards <;> simp
  | arguments =>
    obtain rfl := hforwards rfl
    exact .through hnew hinvoke ⟨_, _, _, _, _, _, rfl⟩ .arguments (.down (k := 2) rfl .top) hnext

/-- What a tree reads is kept if `t'` becomes of it, wherever the two stand, as long as what the
tree may read is had there. -/
def Carried (base : Nat) (localName : String) (whole t t' : Tree NodeId) : Prop :=
  ∀ site site' : Site, (∀ j ∈ t.tags, j < base) → (t' ≠ .empty → Occurs .file whole site' t') →
    Served base localName whole site site' t → Kept base localName whole site t

section Carried
variable {i : NodeId} {mark mark' : Mark} {slots slots' init init' : List (Tree NodeId)}
  {body body' : Tree NodeId}

theorem lt_of_slot {k : Nat} {t : Tree NodeId} (h : ∀ j ∈ (Tree.node i mark slots).tags, j < base)
    (hk : slots[k]? = some t) : ∀ j ∈ t.tags, j < base := by
  intro j hj
  refine h j ?_
  rw [Tree.tags_node]
  exact List.mem_cons_of_mem _ (List.mem_flatMap.mpr ⟨t, List.mem_of_getElem? hk, hj⟩)

theorem Carried.node (hreads : ∀ use : Use, use.Reads mark → use.Reads mark')
    (hbinds : mark'.kind.bindsArguments = mark.kind.bindsArguments)
    (hslots : List.Forall₂ (Carried base localName whole) slots slots') :
    Carried base localName whole (.node i mark slots) (.node i mark' slots') := by
  intro site site' hlt hplace hserved
  have hplace := hplace (by simp)
  refine .node hserved hplace hreads fun k t hk => ?_
  obtain ⟨t', hk', hcarried⟩ := exists_of_forall₂ hslots hk
  exact hcarried _ _ (lt_of_slot hlt hk) (fun _ => hplace.slot hk')
    (hserved.slot (hlt i (by simp)) hbinds hk)

/-- A body that becomes a generator's is carried if the generator is given what it reads. -/
theorem Carried.trampoline {reference : NodeId} {forBlock fresh : Nat → NodeId} {forwards : Bool}
    (h : Carried base localName whole body body') (hnew : base ≤ fresh 0)
    (hforwards : body.mentionsArguments = true → forwards = true) :
    Carried base localName whole body (.trampoline fresh (.identifier reference localName)
      (body'.asBlock forBlock) forwards) := by
  intro site site' hlt hplace hserved
  obtain ⟨site₁, hsite₁, hblock, hhands⟩ := (hplace nofun).of_trampoline hnew
  obtain ⟨site₂, hsite₂, hbody⟩ := hblock.of_asBlock
  refine h site site₂ hlt hbody fun use hat hseen => ?_
  rw [hsite₂, hsite₁]
  refine hhands use site.binder (fun huse => ?_) (hserved use hat hseen)
  subst huse
  exact hforwards hseen

end Carried

/-- **What becomes of a tree keeps what it reads.** -/
theorem Wrapped.carried {own : Bool} {depth : Nat} {t t' : Tree NodeId}
    (h : Wrapped base localName own depth t t') : Carried base localName whole t t' := by
  refine h.induct (motive := fun _ => Carried base localName whole) (fun own => ?_)
    (fun own i mark slots slots' _ hslots => ?_) (fun own i mark _ => ?_)
    (fun own i mark init body init' body' reference forBlock fresh _ _ _ hnew hinit hbody => ?_)
  · intro site site' _ _ _ use site₁ i mark slots hoccurs
    cases hoccurs
  · refine .node (fun use hread => ?_) ?_ hslots
    · split
      · exact hread.byYield
      · exact hread
    · split
      · exact bindsArguments_byYield mark
      · rfl
  · exact .node (fun use hread => hread.plain) (congrArg _ mark.kind_plain) .nil
  · refine .node (fun use hread => hread.plain) (congrArg _ mark.kind_plain)
      (List.rel_append hinit (.cons (hbody.trampoline (hnew 0) fun hseen => ?_) .nil))
    rw [hseen, Bool.or_true]

end Wrapped

/-! ### Programs -/

/-- **`this` and `arguments` keep their meaning when whole functions are lowered.** A node of the
program that reads one of them is still there, reads the same, and leads to the function that it
belonged to, by way of generators made by the pass. -/
theorem settle_keeps_binders {store : Store} {root : NodeId} {p p' : Program} {options : Options}
    {method source : String} {wrapper : Ref} (hshape : store.TreeShaped root)
    (hp : Program.ofStore store root = .ok p)
    (hstrategy : options.strategy = .wholeFunction method source)
    (hok : ProgramM.settle options p = .ok wrapper p') :
    ∃ t t', p.tree? = some t ∧ p'.tree? = some t' ∧ t'.tags.Nodup ∧
      ∀ (use : Use) (site : Site) (i : NodeId) (mark : Mark) (slots : List (Tree NodeId)),
        Occurs .file t site (.node i mark slots) → use.Reads mark → use.At site →
          ∃ site' mark' slots', Occurs .file t' site' (.node i mark' slots') ∧ use.Reads mark' ∧
            Resolves p.store.size (p.names.fresh method).1 t' use site'.binder site.binder := by
  obtain ⟨mark, statements, h, _, htree⟩ := grounded_of_ofStore hshape hp
  obtain ⟨w, statements', rfl, _, hw, hgrown, hwalked⟩ := settle_whole h hstrategy hok
  obtain ⟨_, hnodup⟩ := hw.held h hgrown
  refine ⟨_, _, htree, hw.tree h hgrown, hnodup, ?_⟩
  have hfile : Served p.store.size (p.names.fresh method).1 (.node p.root mark
      (finalStatements p method source w.state.wrapper statements statements')) .file .file
        (.node p.root mark statements) := fun use _ _ => .here nofun
  have hroot : p.root < p.store.size := h.held.lt_size _ (by simp)
  -- a statement may stand in another position, but below the same file
  refine Kept.node hfile .top (fun _ => id) fun k t hk => ?_
  obtain ⟨t', hk', hwrapped⟩ := exists_of_forall₂ hwalked hk
  obtain ⟨k', hplace⟩ := List.mem_iff_getElem?.mp
    (mem_finalStatements.mpr (.inr (List.mem_of_getElem? hk')))
  exact (show Wrapped _ _ false _ t t' from hwrapped).carried _ _ (lt_of_slot h.held.lt_size hk)
    (fun _ => .down hplace .top) (hfile.slot hroot rfl hk)

theorem settle_keeps_binders_nestedAsync :
    ∃ p wrapper p' t', Program.ofStore .nestedAsync 8 = .ok p ∧
      ProgramM.settle ⟨some "wrap", some "runtime"⟩ p = .ok wrapper p' ∧ p'.tree? = some t' ∧
      ∃ site' mark' slots', Occurs .file t' site' (.node 1 mark' slots') ∧ Use.this.Reads mark' ∧
        Resolves p.store.size (p.names.fresh "wrap").1 t' .this site'.binder (some 7) := by
  obtain ⟨p, hp⟩ : ∃ p, Program.ofStore .nestedAsync 8 = .ok p := ⟨_, rfl⟩
  obtain ⟨wrapper, p', hok⟩ : ∃ wrapper p',
      ProgramM.settle ⟨some "wrap", some "runtime"⟩ p = .ok wrapper p' := by
    cases hp
    exact exists_of_isOk (by decide +kernel)
  obtain ⟨t, t', ht, ht', _, hkept⟩ := settle_keeps_binders Store.treeShaped_nestedAsync hp rfl hok
  refine ⟨p, wrapper, p', t', hp, hok, ht', ?_⟩
  cases hp
  cases ht
  exact hkept .this ⟨some 7, false⟩ 1 _ _ (.down (k := 0) rfl (.down (k := 1) rfl (.down (k := 0) rfl
    (.down (k := 0) rfl (.down (k := 0) rfl (.down (k := 1) rfl (.down (k := 0) rfl .top)))))))
    rfl trivial

end Settle
