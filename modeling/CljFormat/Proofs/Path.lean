/-
CljFormat.Proofs.Path — paths into a directory.

A name is put behind the path of a directory with one `/` in between. The names of the new path are
then those of the directory and the new one (`Path.exists_names_join`), so it leads to the entry of
that name (`Disk.locate_join`), and name after name to whatever is below the directory
(`Disk.locate_below`). This needs names that a file can have: one with a `/` in it is two names, and
`.` or `..` lead elsewhere.

The extension of a name is what stands behind its last dot, unless nothing stands in front of that
dot (`Path.extension?_eq_some_iff`).
-/
import CljFormat.Proofs.Disk
import Mathlib.Data.List.TakeWhile
import Mathlib.Data.String.Basic

namespace CljFormat

/-! ## 1. Names -/

namespace Path

/-- What a file or a directory can be called. -/
structure IsName (name : String) : Prop where
  nonempty : name ≠ ""
  noSeparator : '/' ∉ name.toList
  notSelf : name ≠ "."
  notParent : name ≠ ".."

instance (name : String) : Decidable (IsName name) :=
  decidable_of_iff (name ≠ "" ∧ '/' ∉ name.toList ∧ name ≠ "." ∧ name ≠ "..")
    ⟨fun ⟨h, hsep, hself, hparent⟩ => ⟨h, hsep, hself, hparent⟩,
      fun h => ⟨h.nonempty, h.noSeparator, h.notSelf, h.notParent⟩⟩

/-- The name has the extension `ext`: it ends in a dot and `ext`, no later dot comes, and something
stands in front of that dot. -/
def HasExtension (name ext : String) : Prop :=
  ∃ stem, stem ≠ "" ∧ '.' ∉ ext.toList ∧ name = stem ++ "." ++ ext

theorem extension?_eq_some_iff {name ext : String} :
    extension? name = some ext ↔ HasExtension name ext := by
  rw [extension?]
  generalize hreversed : name.toList.reverse = reversed
  have hname : name.toList = reversed.reverse := by rw [← hreversed, List.reverse_reverse]
  constructor
  · intro h
    split at h
    · next d stem hdrop =>
      rw [Option.some.injEq] at h
      have hcut : reversed = reversed.takeWhile (· != '.') ++ '.' :: d :: stem := by
        rw [← hdrop, List.takeWhile_append_dropWhile]
      have hsplit : name.toList = (d :: stem).reverse ++ ['.'] ++ ext.toList := by
        rw [hname, ← h, String.toList_ofList]
        nth_rewrite 1 [hcut]
        simp
      refine ⟨String.ofList (d :: stem).reverse, ?_, ?_, ?_⟩
      · rw [Ne, ← String.toList_inj]
        simp
      · intro hdot
        rw [← h, String.toList_ofList, List.mem_reverse] at hdot
        exact absurd (List.mem_takeWhile_imp hdot) (by decide)
      · rw [← String.toList_inj, hsplit]
        simp
    · cases h
  · rintro ⟨stem, hstem, hdot, rfl⟩
    have hplain : ∀ c ∈ ext.toList.reverse, (c != '.') = true := by
      intro c hc
      rw [List.mem_reverse] at hc
      exact bne_iff_ne.mpr fun heq => hdot (heq ▸ hc)
    have hsplit : reversed = ext.toList.reverse ++ '.' :: stem.toList.reverse := by
      rw [← hreversed]
      simp
    obtain ⟨d, rest, hrest⟩ : ∃ d rest, stem.toList.reverse = d :: rest := by
      refine List.exists_cons_of_ne_nil fun hnil => hstem ?_
      rw [← String.toList_inj]
      simpa using hnil
    rw [hsplit, List.takeWhile_append_of_pos hplain, List.dropWhile_append_of_pos hplain, hrest]
    simp

/-! ## 2. The names of a path -/

/-- Cutting a text at its separators cuts what is behind one of them for itself. -/
theorem pieces_append_cons (separator : Char) (cs ds : List Char) :
    Text.pieces separator (cs ++ separator :: ds)
      = ((Text.pieces separator cs).1, (Text.pieces separator cs).2 ++
          (Text.pieces separator ds).1 :: (Text.pieces separator ds).2) := by
  induction cs with
  | nil => simp [Text.pieces]
  | cons c cs ih =>
    rw [List.cons_append, Text.pieces, Text.pieces, ih]
    dsimp only
    split <;> rfl

theorem pieces_of_not_mem {separator : Char} {cs : List Char} (h : separator ∉ cs) :
    Text.pieces separator cs = (cs, []) := by
  induction cs with
  | nil => rfl
  | cons c cs ih =>
    rw [List.mem_cons, not_or] at h
    rw [Text.pieces, ih h.2]
    exact if_neg fun heq => h.1 heq.symm

theorem names_append (base name : String) (h : '/' ∉ name.toList) :
    names (base ++ "/" ++ name) = names base ++ [name] := by
  have hsplit : (base ++ "/" ++ name).toList = base.toList ++ '/' :: name.toList := by simp
  rw [names, names, hsplit, pieces_append_cons, pieces_of_not_mem h]
  simp

/-- A name is put behind the path of a directory, or behind the `/` that this path ends in. -/
theorem exists_names_join {path name : String} (hpath : path ≠ "") (h : '/' ∉ name.toList) :
    isAbsolute (join path name) = isAbsolute path ∧
      ∃ base, (names path = base ∨ names path = base ++ [""]) ∧
        names (join path name) = base ++ [name] := by
  have hcons : ∃ c cs, path.toList = c :: cs := by
    refine List.exists_cons_of_ne_nil fun hnil => hpath ?_
    rw [← String.toList_inj]
    simpa using hnil
  have hfirst : ∀ text : String, isAbsolute (path ++ text) = isAbsolute path := by
    obtain ⟨c, cs, hcons⟩ := hcons
    simp [isAbsolute, hcons]
  have hempty : path.isEmpty = false := by simpa [String.isEmpty_iff] using hpath
  unfold join
  rw [hempty, Bool.false_or]
  split
  · next hslash =>
    rw [beq_iff_eq] at hslash
    have hlast : path = String.ofList path.toList.dropLast ++ "/" := by
      rw [← String.toList_inj, String.toList_append, String.toList_ofList]
      exact (List.dropLast_append_getLast? '/' hslash).symm
    have hcut := names_append (String.ofList path.toList.dropLast)
    rw [← hlast] at hcut
    refine ⟨hfirst name, names (String.ofList path.toList.dropLast), .inr ?_, hcut name h⟩
    simpa using hcut "" (by simp)
  · refine ⟨?_, names path, .inl rfl, names_append path name h⟩
    rw [String.append_assoc]
    exact hfirst _

/-- The path of what is at `place` below the directory `path`. -/
def below (path : String) (place : List String) : String :=
  place.foldl join path

end Path

/-! ## 3. Directories -/

/-- Every directory in an entry has entries with different names that files can have. -/
def Entry.WellNamed (e : Entry) : Prop :=
  ∀ place entries, e.at? place = some (.dir entries) →
    (entries.map Prod.fst).Nodup ∧ ∀ entry ∈ entries, Path.IsName entry.1

namespace Entry

variable {e : Entry} {name : String} {entries : List (String × Entry)}

/-- No two entries of a directory have the same name, so each of them is found by its name. -/
theorem lookup_eq_some_iff (h : (entries.map Prod.fst).Nodup) :
    entries.lookup name = some e ↔ (name, e) ∈ entries := by
  induction entries with
  | nil => simp
  | cons entry entries ih =>
    obtain ⟨key, first⟩ := entry
    rw [List.map_cons, List.nodup_cons] at h
    by_cases hkey : name = key
    · subst hkey
      have hlater : (name, e) ∉ entries := fun hmem => h.1 (List.mem_map.mpr ⟨_, hmem, rfl⟩)
      simp [hlater, eq_comm]
    · have hother : (name == key) = false := by simpa using hkey
      rw [List.lookup_cons, hother, ih h.2, List.mem_cons, Prod.mk.injEq]
      simp [hkey]

theorem at?_cons (name : String) (place : List String) :
    (dir entries).at? (name :: place) = (entries.lookup name).bind (at? place) := rfl

@[simp] theorem wellNamed_file (content : ByteArray) : (file content).WellNamed := by
  intro place entries h
  cases place <;> cases h

/-- A directory is well named if its entries are and have different names. -/
theorem wellNamed_dir :
    (dir entries).WellNamed ↔ (entries.map Prod.fst).Nodup ∧
      ∀ entry ∈ entries, Path.IsName entry.1 ∧ entry.2.WellNamed := by
  constructor
  · intro h
    obtain ⟨hdistinct, hnamed⟩ := h [] entries rfl
    refine ⟨hdistinct, fun entry hmem => ⟨hnamed entry hmem, fun place below hbelow => ?_⟩⟩
    refine h (entry.1 :: place) below ?_
    rw [at?_cons, (lookup_eq_some_iff hdistinct).mpr hmem]
    exact hbelow
  · rintro ⟨hdistinct, hnamed⟩ place below hbelow
    cases place with
    | nil =>
      cases hbelow
      exact ⟨hdistinct, fun entry hmem => (hnamed entry hmem).1⟩
    | cons name place =>
      obtain ⟨e, hlookup, hbelow⟩ := Option.bind_eq_some_iff.mp hbelow
      have hmem := (lookup_eq_some_iff hdistinct).mp hlookup
      exact (hnamed _ hmem).2 place below hbelow

theorem WellNamed.of_mem (h : (dir entries).WellNamed) {entry : String × Entry}
    (hmem : entry ∈ entries) : entry.2.WellNamed :=
  ((wellNamed_dir.mp h).2 entry hmem).2

end Entry

/-! ## 4. What paths lead to -/

namespace Disk

open Entry (WellNamed)

variable {d : Disk} {path name : String} {place : List String} {entries : List (String × Entry)}

theorem find_eq_ok {e : Entry} :
    d.find path = .ok e ↔ ∃ place, d.locate path = .ok place ∧ d.root.at? place = some e := by
  cases hlocate : d.locate path with
  | error _ => simp [find, hlocate, bind, Except.bind]
  | ok place =>
    cases hat : d.root.at? place <;>
      simp [find, hlocate, hat, bind, Except.bind, throw, throwThe, MonadExceptOf.throw, pure,
        Except.pure]

/-- Names are followed one after another. -/
theorem follow_append (root : Entry) (place names others : List String) :
    follow root place (names ++ others)
      = (follow root place names).bind fun place => follow root place others := by
  induction names generalizing place with
  | nil => rfl
  | cons name names ih =>
    rw [List.cons_append, follow, follow]
    cases root.at? place with
    | none => rfl
    | some e =>
      cases e with
      | file content => rfl
      | dir entries =>
        dsimp only
        split
        · exact ih place
        · split
          · exact ih place.dropLast
          · split
            · exact ih (place ++ [name])
            · rfl

theorem locate_eq (hpath : path ≠ "") :
    d.locate path
      = follow d.root (if Path.isAbsolute path then [] else d.cwd) (Path.names path) :=
  if_neg (by simpa [String.isEmpty_iff] using hpath)

/-- An empty name behind the last `/` of a path stays in the directory. -/
theorem follow_of_names_eq {root : Entry} {start base : List String}
    (hnames : Path.names path = base ∨ Path.names path = base ++ [""])
    (h : follow root start (Path.names path) = .ok place) : follow root start base = .ok place := by
  rcases hnames with hnames | hnames
  · rwa [← hnames]
  · rw [hnames, follow_append] at h
    cases hbase : follow root start base with
    | error e => simp [hbase, Except.bind] at h
    | ok other =>
      simp only [hbase, Except.bind, follow] at h
      split at h <;> simp_all

/-- The path of an entry of a directory leads to it. -/
theorem locate_join (hname : Path.IsName name) (hplace : d.locate path = .ok place)
    (hdir : d.root.at? place = some (.dir entries)) (hentry : (entries.lookup name).isSome) :
    d.locate (Path.join path name) = .ok (place ++ [name]) := by
  have hpath : path ≠ "" := by
    rintro rfl
    cases hplace
  obtain ⟨habsolute, base, hbase, hnames⟩ := Path.exists_names_join hpath hname.noSeparator
  have hjoin : Path.join path name ≠ "" := by
    intro heq
    have hsingle : base ++ [name] = [] ++ [""] := hnames.symm.trans (congrArg Path.names heq)
    obtain ⟨-, hlast⟩ := List.append_inj' hsingle rfl
    exact hname.nonempty (List.singleton_inj.mp hlast)
  rw [locate_eq hpath] at hplace
  rw [locate_eq hjoin, habsolute, hnames, follow_append, follow_of_names_eq hbase hplace]
  simp [Except.bind, follow, hdir, hname.nonempty, hname.notSelf, hname.notParent, hentry]

/-- So does the path of whatever is below a directory. -/
theorem locate_below {e : Entry} (hplace : d.locate path = .ok place)
    (hdir : d.root.at? place = some e) (h : e.WellNamed) {names : List String}
    (hnames : (e.at? names).isSome) :
    d.locate (Path.below path names) = .ok (place ++ names) := by
  induction names generalizing path place e with
  | nil => simpa [Path.below] using hplace
  | cons name names ih =>
    cases e with
    | file content => cases hnames
    | dir entries =>
      obtain ⟨hdistinct, hnamed⟩ := h [] entries rfl
      rw [Entry.at?_cons] at hnames
      cases hlookup : entries.lookup name with
      | none => simp [hlookup] at hnames
      | some e =>
        have hmem := (Entry.lookup_eq_some_iff hdistinct).mp hlookup
        have hjoin := locate_join (hnamed _ hmem) hplace hdir (by simp [hlookup])
        have hat : d.root.at? (place ++ [name]) = some e := by
          simp [Entry.at?_append, hdir, hlookup, Entry.at?]
        have hlater := ih hjoin hat (h.of_mem hmem) (by simpa [hlookup] using hnames)
        rwa [List.append_assoc] at hlater

end Disk

end CljFormat
