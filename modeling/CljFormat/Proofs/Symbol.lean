/-
CljFormat.Proofs.Symbol — joining a namespace and a name, and splitting them again.

A symbol is split at its last `/`. So what was joined is split into the same two halves, provided
that the name has no `/` of its own, or is nothing but one (`split?_join`). Whatever was split is
joined to the same symbol again, and its name too has no `/` or is nothing but one
(`join_of_split?`).

The namespace may hold any number of `/`, and be nothing else: a symbol that ends in `//` names `/`
and leaves all of the rest to its namespace. Of `//` itself nothing would be left, so that it is
split at its last `/` like any other, and its name is empty.
-/
import CljFormat.Symbol
import Mathlib.Data.List.TakeWhile

namespace CljFormat.Symbol

variable {ns name sym : String}

/-- Read backwards, a text without `/` is passed over by the search for one. -/
theorem passes_of_free (h : '/' ∉ sym.toList) : ∀ c ∈ sym.toList.reverse, (c != '/') = true := by
  intro c hc
  simpa using fun heq : c = '/' => h (heq ▸ List.mem_reverse.mp hc)

/-- Read backwards, a joined symbol is its name and then its namespace. -/
theorem reverse_join (ns name : String) :
    (join ns name).toList.reverse = name.toList.reverse ++ '/' :: ns.toList.reverse := by
  simp [join]

/-- A text that reads backwards as a name, a `/` and a namespace is these two joined. -/
theorem join_of_reverse (h : sym.toList.reverse = name.toList.reverse ++ '/' :: ns.toList.reverse) :
    join ns name = sym := by
  rw [← reverse_join, List.reverse_inj, String.toList_inj] at h
  exact h.symm

/-- A namespace and a name come back when they are joined and split. -/
theorem split?_join (hns : ns ≠ "") (hname : name = "/" ∨ name ≠ "" ∧ '/' ∉ name.toList) :
    split? (join ns name) = some (ns, name) := by
  have hlast : ∃ n rest, ns.toList.reverse = n :: rest :=
    List.exists_cons_of_ne_nil (by simpa using hns)
  obtain ⟨n, rest, hrest⟩ := hlast
  have hback : String.ofList (n :: rest).reverse = ns := by
    rw [← hrest, List.reverse_reverse, String.ofList_toList]
  unfold split?
  rw [reverse_join, hrest]
  obtain rfl | ⟨hne, hslash⟩ := hname
  · simpa using hback
  · have hpasses := passes_of_free hslash
    split
    · rename_i n' ns' heq
      -- The name is not empty, so it is its last character that would have to be the `/`.
      obtain ⟨c, cs, hcs⟩ := List.exists_cons_of_ne_nil
        (show name.toList.reverse ≠ [] by simpa using hne)
      rw [hcs] at heq hpasses
      obtain ⟨rfl, -⟩ := List.cons.inj heq
      simpa using hpasses '/' List.mem_cons_self
    · rw [List.dropWhile_append_of_pos hpasses, List.takeWhile_append_of_pos hpasses]
      simpa using hback

/-- The two halves of a symbol make it up again. The first is not empty, and there is no `/` in the
second unless it is one. -/
theorem join_of_split? (h : split? sym = some (ns, name)) :
    ns ≠ "" ∧ join ns name = sym ∧ (name = "/" ∨ '/' ∉ name.toList) := by
  unfold split? at h
  split at h
  · rename_i n rest hends
    simp only [Option.some.injEq, Prod.mk.injEq] at h
    obtain ⟨rfl, rfl⟩ := h
    exact ⟨by simp, join_of_reverse (by simp [hends]), .inl rfl⟩
  · split at h
    · rename_i n rest hlast
      simp only [Option.some.injEq, Prod.mk.injEq] at h
      obtain ⟨rfl, rfl⟩ := h
      have hcut := List.takeWhile_append_dropWhile (p := (· != '/')) (l := sym.toList.reverse)
      rw [hlast] at hcut
      -- The name is what the search for a `/` has passed over.
      refine ⟨by simp, join_of_reverse (by simpa using hcut.symm), .inr fun hslash => ?_⟩
      rw [String.toList_ofList, List.mem_reverse] at hslash
      simpa using List.mem_takeWhile_imp hslash
    · cases h

/-- A symbol without `/` is not qualified. -/
theorem split?_eq_none (h : '/' ∉ sym.toList) : split? sym = none := by
  have hpasses := passes_of_free h
  unfold split?
  split
  · rename_i n ns heq
    rw [heq] at hpasses
    simpa using hpasses '/' List.mem_cons_self
  · simp [List.dropWhile_eq_nil_iff.mpr hpasses]

/-- Joining and splitting undo each other. A namespace is split off as it was joined on, whatever it
holds, and the halves of a symbol are joined to what was split. -/
theorem split?_inverts_join :
    (∀ ns name : String, ns ≠ "" → (name = "/" ∨ name ≠ "" ∧ '/' ∉ name.toList) →
      split? (join ns name) = some (ns, name)) ∧
    ∀ sym ns name : String, split? sym = some (ns, name) →
      ns ≠ "" ∧ join ns name = sym ∧ (name = "/" ∨ '/' ∉ name.toList) :=
  ⟨fun _ _ => split?_join, fun _ _ _ => join_of_split?⟩

/-- The namespace `//` keeps both of its slashes in front of the name `/`, and the symbol `//` is
split into a namespace and an empty name. -/
theorem split?_inverts_join_slashes :
    ("//" ≠ "" ∧ split? (join "//" "/") = some ("//", "/")) ∧
      split? "//" = some ("/", "") ∧ join "/" "" = "//" := by
  have hsplit : split? "//" = some ("/", "") := by decide
  obtain ⟨hjoin, hhalves⟩ := split?_inverts_join
  exact ⟨⟨by decide, hjoin "//" "/" (by decide) (.inl rfl)⟩, hsplit, (hhalves _ _ _ hsplit).2.1⟩

end CljFormat.Symbol
