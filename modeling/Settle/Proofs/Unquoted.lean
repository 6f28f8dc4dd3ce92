import Settle.Proofs.Indentation

/-! Strings read back.

A string is printed between double quotes, and what is printed next may be anything. A reader
that starts at the opening quote has to find the closing one by itself: it takes a backslash
together with the character after it, and stops at the first quote that is left
(`Text.unquote`). Between quotes a line feed and a carriage return may not stand as they are.

What is printed for a text is read back as that text, up to its own closing quote, and nothing
else is read as that text (`strings_read_back`). Texts with a carriage return are left out:
printing does not escape it, so that the reader gives up there. -/
namespace Settle

/-! ### A reader of quoted text -/

namespace Text

/-- What a backslash and the character after it stand for. -/
def escaped? : Char → Option Char
  | '"' => some '"'
  | '\\' => some '\\'
  | 'n' => some '\n'
  | _ => none

/-- Whether a character stands for itself between quotes. -/
def isVerbatim (c : Char) : Bool := !(['"', '\\', '\n', '\r'].contains c)

/-- Reads on to the closing quote: the text up to there, and what comes after the quote. -/
def readToQuote : List Char → Option (List Char × List Char)
  | [] => none
  | '"' :: rest => some ([], rest)
  | '\\' :: c :: rest => (escaped? c).bind fun d => (readToQuote rest).map (Prod.map (d :: ·) id)
  | c :: rest => if isVerbatim c then (readToQuote rest).map (Prod.map (c :: ·) id) else none

/-- Reads from the opening quote on. -/
def unquote : List Char → Option (String × List Char)
  | '"' :: rest => (readToQuote rest).map (Prod.map String.ofList id)
  | _ => none

/-- **A reader gets over a character as it is printed, unless it is a carriage return.** -/
theorem readToQuote_escape (c : Char) (input : List Char) :
    readToQuote (escape c ++ input) =
      if c = '\r' then none else (readToQuote input).map (Prod.map (c :: ·) id) := by
  unfold escape
  split
  · rfl
  · rfl
  · rfl
  · next hquote hbackslash hfeed =>
    -- Of what is printed as it is, a reader refuses the carriage return only.
    have hverbatim : isVerbatim c = !decide (c = '\r') := by
      simp [isVerbatim, decide_eq_false hquote, decide_eq_false hbackslash, decide_eq_false hfeed]
    rw [List.singleton_append, readToQuote, hverbatim]
    · by_cases hreturn : c = '\r' <;> simp [hreturn]
    · exact hquote
    · intro c' rest hc
      exact absurd hc hbackslash

/-- What is printed between quotes is read up to the closing one. -/
theorem readToQuote_flatMap (text rest : List Char) :
    readToQuote (text.flatMap escape ++ '"' :: rest) =
      if '\r' ∈ text then none else some (text, rest) := by
  induction text with
  | nil => rfl
  | cons c text ih =>
    rw [List.flatMap_cons, List.append_assoc, readToQuote_escape, ih]
    by_cases hc : c = '\r'
    · simp [hc]
    · by_cases htext : '\r' ∈ text
      · simp [htext]
      · simp [hc, htext, eq_comm]

theorem escape_of_escaped? {c d : Char} (h : escaped? c = some d) : escape d = ['\\', c] := by
  unfold escaped? at h
  split at h
  · cases h; rfl
  · cases h; rfl
  · cases h; rfl
  · cases h

theorem escape_of_isVerbatim {c : Char} (h : isVerbatim c = true) : escape c = [c] := by
  unfold escape
  split
  · cases h
  · cases h
  · cases h
  · rfl

/-- Nothing is read as a text but what is printed for it. -/
theorem eq_of_readToQuote {input text rest : List Char} (h : readToQuote input = some (text, rest)) :
    input = text.flatMap escape ++ '"' :: rest := by
  fun_induction readToQuote input generalizing text with
  | case1 => cases h
  | case2 rest' =>
    cases h
    rfl
  | case3 c input ih =>
    simp only [Option.bind_eq_some_iff, Option.map_eq_some_iff] at h
    obtain ⟨d, hd, ⟨text', rest'⟩, hread, heq⟩ := h
    cases heq
    rw [ih hread, List.flatMap_cons, escape_of_escaped? hd]
    rfl
  | case4 c input _ _ hc ih =>
    obtain ⟨⟨text', rest'⟩, hread, heq⟩ := Option.map_eq_some_iff.mp h
    cases heq
    rw [ih hread, List.flatMap_cons, escape_of_isVerbatim hc]
    rfl
  | case5 => cases h

theorem toList_quote_append (text : String) (rest : List Char) :
    (quote text).toList ++ rest = '"' :: (text.toList.flatMap escape ++ '"' :: rest) := by
  simp [quote, quoteChars]

theorem unquote_quote (text : String) (rest : List Char) :
    unquote ((quote text).toList ++ rest) =
      if '\r' ∈ text.toList then none else some (text, rest) := by
  rw [toList_quote_append, unquote, readToQuote_flatMap]
  by_cases hreturn : '\r' ∈ text.toList
  · simp [hreturn]
  · simp [hreturn]

/-- **What is read as a text is what is printed for it, followed by anything.** -/
theorem unquote_eq_some_iff {input rest : List Char} {text : String} :
    unquote input = some (text, rest) ↔
      '\r' ∉ text.toList ∧ input = (quote text).toList ++ rest := by
  constructor
  · intro h
    have hinput : input = (quote text).toList ++ rest := by
      unfold unquote at h
      split at h
      · obtain ⟨⟨body, rest'⟩, hread, heq⟩ := Option.map_eq_some_iff.mp h
        cases heq
        rw [eq_of_readToQuote hread, toList_quote_append, String.toList_ofList]
        rfl
      · cases h
    rw [hinput, unquote_quote] at h
    -- A reader that starts at what is printed with a carriage return would have given up.
    exact ⟨fun hreturn => by simp [hreturn] at h, hinput⟩
  · intro h
    rw [h.2, unquote_quote, if_neg h.1]

end Text

/-! ### Strings in printed code -/

namespace Store
variable {s : Store}

/-- A printer takes back nothing. -/
theorem output_of_advance {printer printer' : Printer} (h : s.advance printer = some printer') :
    printer.output.toList <+: printer'.output.toList := by
  obtain ⟨pending, output, level⟩ := printer
  cases pending with
  | nil => cases h
  | cons stroke rest => cases stroke <;> cases h <;> simp

theorem Prints.output_prefix {printer printer' : Printer} (h : s.Prints printer printer') :
    printer.output.toList <+: printer'.output.toList := by
  induction h with
  | refl => exact List.prefix_refl _
  | tail _ hstep ih => exact ih.trans (output_of_advance hstep)

theorem prints_leaf {i : NodeId} {text : String} (h : s.leaf? i = some text)
    (pending : List Stroke) (output : String) (level : Nat) :
    s.Prints ⟨.child (some i) :: pending, output, level⟩ ⟨pending, output ++ text, level⟩ := by
  have hchild : s.advance ⟨.child (some i) :: pending, output, level⟩ =
      some ⟨.leaf text :: pending, output, level⟩ := by
    rw [advance, strokes_of_leaf? h, List.singleton_append]
  exact .head hchild (.single rfl)

theorem Acyclic.prints {i : NodeId} (h : s.Acyclic i) :
    s.Prints ⟨[.child (some i)], "", 0⟩ ⟨[], s.print i, 0⟩ := by
  have hprints := h.bounded.prints [] "" 0
  rwa [String.empty_append] at hprints

/-- Where its turn comes in the printing of a tree, a leaf stands in the printed code. -/
theorem Acyclic.exists_print_eq {root : NodeId} (hroot : s.Acyclic root) {i : NodeId}
    {text : String} (hleaf : s.leaf? i = some text) {pending : List Stroke} {before : String}
    {level : Nat}
    (hturn : s.Prints ⟨[.child (some root)], "", 0⟩ ⟨.child (some i) :: pending, before, level⟩) :
    ∃ after, (s.print root).toList = before.toList ++ (text.toList ++ after) := by
  have hrest : s.Prints ⟨pending, before ++ text, level⟩ ⟨[], s.print root, 0⟩ :=
    resume_of_end (hturn.trans (prints_leaf hleaf pending before level)) hroot.prints rfl
  obtain ⟨after, hafter⟩ := hrest.output_prefix
  exact ⟨after, by rw [← hafter, String.toList_append, List.append_assoc]⟩

/-- **A string is read back from where it was printed, exactly if it has no carriage return.** The
reader starts at the opening quote, whatever follows; it stops at the closing quote, and no other
code is read as that string. -/
theorem strings_read_back (text : String) :
    (∀ input rest, Text.unquote input = some (text, rest) ↔
      '\r' ∉ text.toList ∧ input = (Text.quote text).toList ++ rest) ∧
    (∀ rest, '\r' ∈ text.toList → Text.unquote ((Text.quote text).toList ++ rest) = none) ∧
    ∀ (s : Store) (root i : NodeId), s.Acyclic root → s.kind? i = some (.literal .string) →
      s.payload? i = some (.literal text) → ∀ (pending : List Stroke) (before : String) (level : Nat),
      s.Prints ⟨[.child (some root)], "", 0⟩ ⟨.child (some i) :: pending, before, level⟩ →
      ∃ after, (s.print root).toList = before.toList ++ ((Text.quote text).toList ++ after) := by
  refine ⟨fun input rest => Text.unquote_eq_some_iff, fun rest hreturn => ?_, ?_⟩
  · rw [Text.unquote_quote, if_pos hreturn]
  · intro s root i hroot hkind hp pending before level hturn
    have hleaf : s.leaf? i = some (Text.quote text) := by simp [leaf?, hkind, hp]
    exact hroot.exists_print_eq hleaf hturn

/-- Two backslashes, a quote and a line feed. -/
def marks : String := "\\\\\"\n"

/-- A list of strings: `marks`, a string with a carriage return, and `marks` again. -/
def quoting : Store :=
  ({} : Store)
    |>.push (.literal .string) 0 .zero (.literal marks)
    |>.push (.literal .string) 0 .zero (.literal "a\rb")
    |>.push (.collection .array) 0 .zero (.collection [some 0, some 1, some 0])

theorem strings_read_back_quoting :
    quoting.Acyclic 2 ∧ quoting.kind? 0 = some (.literal .string) ∧
    quoting.payload? 0 = some (.literal marks) ∧
    quoting.Prints ⟨[.child (some 2)], "", 0⟩
      ⟨[.child (some 0), .mark "]"], "[\"\\\\\\\\\\\"\\n\", \"a\rb\", ", 0⟩ ∧
    ∃ after, (quoting.print 2).toList =
        "[\"\\\\\\\\\\\"\\n\", \"a\rb\", ".toList ++ ((Text.quote marks).toList ++ after) ∧
      Text.unquote ((Text.quote marks).toList ++ after) = some (marks, after) ∧
      Text.unquote ((Text.quote "a\rb").toList ++ after) = none := by
  have hacyclic : quoting.Acyclic 2 := acyclic_of_lt (by decide) 2
  have hturn : quoting.Prints ⟨[.child (some 2)], "", 0⟩
      ⟨[.child (some 0), .mark "]"], "[\"\\\\\\\\\\\"\\n\", \"a\rb\", ", 0⟩ :=
    .head rfl (.head rfl (.head rfl (.head rfl (.head rfl (.head rfl (.head rfl (.single rfl)))))))
  obtain ⟨hread, _, hprinted⟩ := strings_read_back marks
  obtain ⟨_, hrefused, _⟩ := strings_read_back "a\rb"
  obtain ⟨after, hafter⟩ := hprinted quoting 2 0 hacyclic rfl rfl _ _ 0 hturn
  exact ⟨hacyclic, rfl, rfl, hturn, after, hafter, (hread _ after).mpr ⟨by decide, rfl⟩,
    hrefused after (by decide)⟩

/-- A carriage return is printed as it is, and then the string cannot be read. -/
theorem carriageReturn_not_read_back :
    quoting.kind? 1 = some (.literal .string) ∧ quoting.payload? 1 = some (.literal "a\rb") ∧
      quoting.print 1 = "\"a\rb\"" ∧
      Text.unquote (quoting.print 1).toList ≠ some ("a\rb", []) := by
  decide +kernel

end Store
end Settle
