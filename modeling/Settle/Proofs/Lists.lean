import Mathlib.Data.List.Forall2

/-! Lists, as slots and statements need them.

What becomes of a node is said slot by slot, so two lists often stand side by side
(`List.Forall₂`). What is put among statements is put behind those that a test holds of
from the beginning (`List.takeWhile`). What is printed of slots has a separator between
each two (`List.intercalate`). -/
namespace Settle

section SideBySide
variable {α β γ : Type} {R : α → β → Prop} {as as' : List α} {bs : List β}

theorem exists_of_forall₂ (h : List.Forall₂ R as bs) {k : Nat} {a : α} (hk : as[k]? = some a) :
    ∃ b, bs[k]? = some b ∧ R a b := by
  induction h generalizing k with
  | nil => cases hk
  | cons hab _ ih =>
    cases k with
    | zero =>
      obtain rfl := Option.some.inj hk
      exact ⟨_, rfl, hab⟩
    | succ k => exact ih hk

theorem exists_mem_of_forall₂ (h : List.Forall₂ R as bs) {a : α} (ha : a ∈ as) :
    ∃ b ∈ bs, R a b := by
  obtain ⟨k, hk⟩ := List.mem_iff_getElem?.mp ha
  obtain ⟨b, hb, hab⟩ := exists_of_forall₂ h hk
  exact ⟨b, List.mem_of_getElem? hb, hab⟩

theorem forall₂_append_left (h : List.Forall₂ R (as ++ as') bs) :
    ∃ cs cs', List.Forall₂ R as cs ∧ List.Forall₂ R as' cs' ∧ bs = cs ++ cs' := by
  induction as generalizing bs with
  | nil => exact ⟨[], bs, .nil, h, rfl⟩
  | cons a rest ih =>
    obtain _ | ⟨hab, hrest⟩ := h
    obtain ⟨cs, cs', hcs, hcs', rfl⟩ := ih hrest
    exact ⟨_ :: cs, cs', .cons hab hcs, hcs', rfl⟩

theorem forall₂_concat {a : α} {b : β} :
    List.Forall₂ R (as ++ [a]) (bs ++ [b]) ↔ List.Forall₂ R as bs ∧ R a b := by
  rw [← List.forall₂_reverse_iff]
  simp only [List.reverse_append, List.reverse_singleton, List.singleton_append,
    List.forall₂_cons, List.forall₂_reverse_iff]
  exact and_comm

/-- Where two functions agree one by one, they make the same list. -/
theorem map_eq_map_iff_forall₂ {f : α → γ} {g : β → γ} :
    as.map f = bs.map g ↔ List.Forall₂ (fun a b => f a = g b) as bs := by
  rw [← List.forall₂_eq_eq_eq, List.forall₂_map_left_iff, List.forall₂_map_right_iff]

/-- Where a view of one list is an image of the view of another one by one, it is so as a whole. -/
theorem map_eq_map_map {f : α → γ} {g : γ → γ} {as as' : List α}
    (h : List.Forall₂ (fun a a' => f a' = g (f a)) as as') : as'.map f = (as.map f).map g := by
  rw [List.map_map]
  exact (map_eq_map_iff_forall₂.mpr (h.imp fun _ _ => Eq.symm)).symm

theorem forall₂_of_map_eq {f : α → γ} {g : β → γ} (h : as.map f = bs.map g) :
    List.Forall₂ (fun a b => a ∈ as ∧ b ∈ bs ∧ f a = g b) as bs := by
  obtain ⟨hlength, hzip⟩ := List.forall₂_iff_zip.mp (map_eq_map_iff_forall₂.mp h)
  refine List.forall₂_iff_zip.mpr ⟨hlength, fun {a b} hmem => ?_⟩
  obtain ⟨ha, hb⟩ := List.of_mem_zip hmem
  exact ⟨ha, hb, hzip hmem⟩

end SideBySide

section FromTheBeginning
variable {α : Type} {as : List α}

theorem takeWhile_congr {f g : α → Bool} (h : ∀ a ∈ as, f a = g a) :
    as.takeWhile f = as.takeWhile g := by
  induction as with
  | nil => rfl
  | cons a rest ih =>
    rw [List.takeWhile_cons, List.takeWhile_cons, h a List.mem_cons_self,
      ih fun a ha => h a (List.mem_cons_of_mem _ ha)]

theorem takeWhile_dropWhile (test : α → Bool) (as : List α) :
    (as.dropWhile test).takeWhile test = [] := by
  induction as with
  | nil => rfl
  | cons a rest ih =>
    by_cases ha : test a = true
    · rwa [List.dropWhile_cons_of_pos ha]
    · rw [List.dropWhile_cons_of_neg ha, List.takeWhile_cons_of_neg ha]

end FromTheBeginning

theorem intercalate_cons {α : Type} (sep first : List α) (rest : List (List α)) :
    sep.intercalate (first :: rest) = first ++ rest.flatMap (sep ++ ·) := by
  induction rest generalizing first with
  | nil => simp
  | cons next rest ih =>
    rw [List.intercalate_cons_cons, ih next, List.flatMap_cons, List.append_assoc,
      List.append_assoc]

end Settle
