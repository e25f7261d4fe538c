/-
CljFormat.Proofs.Lists — what several modules need of lists.

A longest run of characters ends where it is stopped. Two lists with related members stay so when
both are cut, numbered, zipped or chosen from alike. And a function that can fail gives a result for
a list exactly if it gives one for each member, be it that it fails with a cause or without.
-/
import Mathlib.Data.List.Forall2

namespace CljFormat

open List (Forall₂)

/-! ## 1. Longest runs -/

section

variable {p : Char → Bool}

/-- What follows a text does not lengthen its run if it does not start with more of it. -/
theorem takeWhile_append_of_head {rest : List Char} (hrest : ∀ c ∈ rest.head?, p c = false)
    (cs : List Char) : (cs ++ rest).takeWhile p = cs.takeWhile p := by
  induction cs with
  | nil =>
    cases rest with
    | nil => rfl
    | cons d ds => simp [hrest d rfl]
  | cons c cs ih => rw [List.cons_append, List.takeWhile_cons, List.takeWhile_cons, ih]

theorem takeWhile_append_cons {d : Char} (hd : p d = false) (cs rest : List Char) :
    (cs ++ d :: rest).takeWhile p = cs.takeWhile p :=
  takeWhile_append_of_head (by simpa using hd) cs

end

/-! ## 2. Lists with related members -/

section

variable {α β γ δ : Type} {R : α → β → Prop} {S : γ → δ → Prop} {as : List α} {bs : List β}

/-- What the items of two lists are chosen by and mapped to is related if the items are. -/
theorem forall₂_filter_map {p : α → Bool} {q : β → Bool} {k : α → γ} {k' : β → δ}
    (hp : ∀ a b, R a b → p a = q b) (hk : ∀ a b, R a b → S (k a) (k' b)) (h : Forall₂ R as bs) :
    Forall₂ S ((as.filter p).map k) ((bs.filter q).map k') := by
  have hchosen : Forall₂ R (as.filter p) (bs.filter q) :=
    List.rel_filter (fun a b hab => Bool.eq_iff_iff.mp (hp a b hab)) h
  exact List.rel_map (fun a b hab => hk a b hab) hchosen

theorem forall₂_zipIdx (h : Forall₂ R as bs) (n : Nat) :
    Forall₂ (fun p q => R p.1 q.1 ∧ p.2 = q.2) (as.zipIdx n) (bs.zipIdx n) := by
  induction h generalizing n with
  | nil => exact .nil
  | cons hab _ ih =>
    rw [List.zipIdx_cons, List.zipIdx_cons]
    exact .cons ⟨hab, rfl⟩ (ih (n + 1))

theorem forall₂_zip {cs : List γ} {ds : List δ} (h : Forall₂ R as bs) (h' : Forall₂ S cs ds) :
    Forall₂ (fun p q => R p.1 q.1 ∧ S p.2 q.2) (as.zip cs) (bs.zip ds) := by
  induction h generalizing cs ds with
  | nil => exact .nil
  | cons hab _ ih =>
    cases h' with
    | nil => exact .nil
    | cons hcd hrest => exact .cons ⟨hab, hcd⟩ (ih hrest)

theorem forall₂_append {as' : List α} {bs' : List β} (hlength : as.length = bs.length)
    (h : Forall₂ R (as ++ as') (bs ++ bs')) : Forall₂ R as bs ∧ Forall₂ R as' bs' := by
  have htake := List.forall₂_take_append _ bs bs' h
  have hdrop := List.forall₂_drop_append _ bs bs' h
  rw [← hlength] at htake hdrop
  simpa using And.intro htake hdrop

end

/-! ## 3. What fails at no member -/

section

variable {α β ε : Type} {xs : List α} {ys : List β}

/-- What fails at no member of a list gives a result for each. -/
theorem mapM_eq_some_iff {g : α → Option β} :
    xs.mapM g = some ys ↔ Forall₂ (fun x y => g x = some y) xs ys := by
  induction xs generalizing ys with
  | nil => cases ys <;> simp
  | cons x xs ih =>
    rw [List.mapM_cons]
    cases hx : g x with
    | none => cases ys <;> simp [hx]
    | some y =>
      cases hxs : xs.mapM g with
      | none => cases ys <;> simp [← ih, hxs]
      | some later => cases ys <;> simp [← ih, hx, hxs]

theorem toOption_eq_some_iff {x : Except ε β} {y : β} : x.toOption = some y ↔ x = .ok y := by
  cases x <;> simp [Except.toOption]

theorem toOption_mapM (g : α → Except ε β) (xs : List α) :
    (xs.mapM g).toOption = xs.mapM fun x => (g x).toOption := by
  induction xs with
  | nil => rfl
  | cons x xs ih =>
    rw [List.mapM_cons, List.mapM_cons, ← ih]
    cases g x with
    | error e => rfl
    | ok y => cases xs.mapM g <;> rfl

/-- The same where a failure has a cause, which no result depends on. -/
theorem mapM_eq_ok_iff {g : α → Except ε β} :
    xs.mapM g = .ok ys ↔ Forall₂ (fun x y => g x = .ok y) xs ys := by
  rw [← toOption_eq_some_iff, toOption_mapM, mapM_eq_some_iff]
  simp only [toOption_eq_some_iff]

end

end CljFormat
