/-
CljFormat.Proofs.Command.Walk — a walk finds the source files of a directory.

Which files count is said of the names that lead to them (`Selected`): the last is that of a source
file, and none of those before it is that of a directory that is passed over. The name of the
directory that is walked is not among them, so it may be any, and so may the names of files be as
far as passing over goes.

The order is that of these names, the first ones first: of two files, where the ways to them part,
the one below the smaller name comes first (`<` on lists). It is strict, so no file comes twice. A
walk puts the entries of each directory in order and walks them one after another; what it finds
below one entry comes before what it finds below the next (`exists_finds_among`), and so by
induction over directories the walk is in order as a whole (`exists_finds`).

At the end the names are paths again, and these lead to the files that were found
(`collect_finds`).
-/
import CljFormat.Command.Walk
import CljFormat.Proofs.Path
import Mathlib.Data.List.Sort
import Mathlib.Data.String.Basic

namespace CljFormat

/-- Induction over entries, with one hypothesis for all entries of a directory. -/
@[elab_as_elim]
theorem Entry.induct {motive : Entry → Prop} (file : ∀ content, motive (.file content))
    (dir : ∀ entries : List (String × Entry), (∀ entry ∈ entries, motive entry.2) →
      motive (.dir entries))
    (e : Entry) : motive e :=
  @Entry.rec motive (fun entries => ∀ entry ∈ entries, motive entry.2)
    (fun entry => motive entry.2) file dir
    (fun entry hentry => absurd hentry List.not_mem_nil)
    (fun _ _ hfirst hrest entry hentry => by
      rcases List.mem_cons.mp hentry with rfl | hmem
      · exact hfirst
      · exact hrest entry hmem)
    (fun _ _ he => he) e

namespace Command

/-! ## 1. Names that are selected -/

/-- The name of a source file. -/
def IsSourceName (name : String) : Prop :=
  ∃ ext ∈ ["clj", "cljs", "cljc", "edn"], Path.HasExtension name ext

/-- The name of a directory that is passed over. -/
def PassedOver (name : String) : Prop :=
  name = "target" ∨ name = "node_modules" ∨ ∃ rest, name = "." ++ rest

theorem isSourceName_iff {name : String} : isSourceName name = true ↔ IsSourceName name := by
  simp only [isSourceName, Option.any_eq_true, IsSourceName, Path.extension?_eq_some_iff,
    List.contains_iff_mem, extensions]
  exact exists_congr fun ext => and_comm

theorem isSkippedName_iff {name : String} : isSkippedName name = true ↔ PassedOver name := by
  have hdot : name.toList.head? = some '.' ↔ ∃ rest, name = "." ++ rest := by
    constructor
    · intro h
      obtain ⟨rest, hrest⟩ := List.head?_eq_some_iff.mp h
      refine ⟨String.ofList rest, ?_⟩
      rw [← String.toList_inj, hrest]
      simp
    · rintro ⟨rest, rfl⟩
      simp
  simp only [isSkippedName, Bool.or_eq_true, beq_iff_eq, hdot, PassedOver]
  tauto

/-- These names lead to a source file, and through no directory that is passed over. -/
structure Selected (names : List String) : Prop where
  source : ∃ name ∈ names.getLast?, IsSourceName name
  entered : ∀ name ∈ names.dropLast, ¬ PassedOver name

theorem selected_singleton {name : String} : Selected [name] ↔ IsSourceName name :=
  ⟨fun h => by simpa using h.source, fun h => ⟨by simpa using h, by simp⟩⟩

theorem selected_cons_cons {name next : String} {names : List String} :
    Selected (name :: next :: names) ↔ ¬ PassedOver name ∧ Selected (next :: names) := by
  constructor
  · rintro ⟨hsource, hentered⟩
    rw [List.dropLast_cons_cons, List.forall_mem_cons] at hentered
    rw [List.getLast?_cons_cons] at hsource
    exact ⟨hentered.1, hsource, hentered.2⟩
  · rintro ⟨hname, hsource, hentered⟩
    refine ⟨?_, ?_⟩
    · rwa [List.getLast?_cons_cons]
    · rw [List.dropLast_cons_cons, List.forall_mem_cons]
      exact ⟨hname, hentered⟩

/-! ## 2. Entries in order -/

variable {entries : List (String × Entry)}

/-- The entries of a directory in the order of their names. -/
def inOrder (entries : List (String × Entry)) : List (String × Entry) :=
  entries.insertionSort fun a b => a.1 ≤ b.1

theorem perm_inOrder (entries : List (String × Entry)) : (inOrder entries).Perm entries :=
  List.perm_insertionSort _ entries

/-- Different names come one after another. -/
theorem pairwise_inOrder (h : (entries.map Prod.fst).Nodup) :
    (inOrder entries).Pairwise fun a b => a.1 < b.1 := by
  have : Std.Total fun a b : String × Entry => a.1 ≤ b.1 := ⟨fun a b => le_total a.1 b.1⟩
  have : IsTrans (String × Entry) fun a b => a.1 ≤ b.1 := ⟨fun _ _ _ => le_trans⟩
  have hle : (inOrder entries).Pairwise fun a b => a.1 ≤ b.1 := List.pairwise_insertionSort _ _
  have hne : (inOrder entries).Pairwise fun a b => a.1 ≠ b.1 :=
    List.pairwise_map.mp (((perm_inOrder entries).map Prod.fst).nodup_iff.mpr h)
  exact (List.pairwise_and_iff.mpr ⟨hle, hne⟩).imp fun h => lt_of_le_of_ne h.1 h.2

/-- An entry keeps its place if something else is known by its name. -/
theorem insertByName_map {β γ : Type} {g : String × β → String × γ} (hg : ∀ a, (g a).1 = a.1)
    (a : String × β) (l : List (String × β)) :
    insertByName (g a) (l.map g) = (l.orderedInsert (fun a b => a.1 ≤ b.1) a).map g := by
  induction l with
  | nil => rfl
  | cons b l ih =>
    rw [List.map_cons, insertByName, List.orderedInsert_cons, hg, hg]
    split
    · rfl
    · rw [List.map_cons, ih]

/-- A walk takes the entries of a directory in order. -/
theorem walkAll_eq (path : String) (entries : List (String × Entry)) :
    walkAll path entries = (inOrder entries).map (walkEntry path) := by
  induction entries with
  | nil => rfl
  | cons entry rest ih =>
    have hname : ∀ entry, (walkEntry path entry).1 = entry.1 := fun ⟨_, _⟩ => rfl
    rw [walkAll, ih, insertByName_map hname]
    rfl

/-! ## 3. What is found below an entry -/

/-- Walking an entry that is called `name` finds the files to which these names lead from it. They
are in order, and they are the source files that are not passed over. -/
structure Finds (name : String) (e : Entry) (places : List (List String)) : Prop where
  walked : ∀ path, walkNamed path name e = places.map (Path.below path)
  ordered : places.Pairwise (· < ·)
  mem_iff : ∀ place, place ∈ places ↔
    (∃ content, e.at? place = some (.file content)) ∧ Selected (name :: place)

/-- What is found below some entries that come one after another. -/
theorem exists_finds_among (horder : entries.Pairwise fun a b => a.1 < b.1)
    (h : ∀ entry ∈ entries, ∃ places, Finds entry.1 entry.2 places) :
    ∃ places : List (List String),
      (∀ path, (entries.map (walkEntry path)).flatMap Prod.snd = places.map (Path.below path)) ∧
      places.Pairwise (· < ·) ∧
      ∀ place, place ∈ places ↔ ∃ entry ∈ entries, ∃ rest, place = entry.1 :: rest ∧
        (∃ content, entry.2.at? rest = some (.file content)) ∧ Selected place := by
  induction entries with
  | nil => exact ⟨[], fun _ => rfl, .nil, by simp⟩
  | cons entry later ih =>
    rw [List.pairwise_cons] at horder
    rw [List.forall_mem_cons] at h
    obtain ⟨found, hfound⟩ := h.1
    obtain ⟨others, hwalked, hordered, hmem⟩ := ih horder.2 h.2
    refine ⟨found.map (entry.1 :: ·) ++ others, fun path => ?_, ?_, fun place => ?_⟩
    · have hfirst : (walkEntry path entry).2
          = (found.map (entry.1 :: ·)).map (Path.below path) := by
        obtain ⟨name, e⟩ := entry
        rw [List.map_map]
        exact hfound.walked (Path.join path name)
      rw [List.map_cons, List.flatMap_cons, hwalked, hfirst, List.map_append]
    · refine List.pairwise_append.mpr ⟨List.pairwise_map.mpr ?_, hordered, ?_⟩
      · exact hfound.ordered.imp fun hlt => List.cons_lt_cons_iff.mpr (.inr ⟨rfl, hlt⟩)
      · -- The names part at once, and that of the first entry is smaller.
        intro place hplace other hother
        obtain ⟨rest, -, rfl⟩ := List.mem_map.mp hplace
        obtain ⟨next, hnext, rest', rfl, -⟩ := (hmem other).mp hother
        exact List.cons_lt_cons_iff.mpr (.inl (horder.1 next hnext))
    · rw [List.mem_append, hmem, List.mem_map, List.exists_mem_cons_iff]
      refine or_congr_left ⟨?_, ?_⟩
      · rintro ⟨rest, hrest, rfl⟩
        obtain ⟨hfile, hselected⟩ := (hfound.mem_iff rest).mp hrest
        exact ⟨rest, rfl, hfile, hselected⟩
      · rintro ⟨rest, rfl, hfile, hselected⟩
        exact ⟨rest, (hfound.mem_iff rest).mpr ⟨hfile, hselected⟩, rfl⟩

/-- What is found in a directory, if so much is known of its entries. -/
theorem exists_walk (hnamed : (Entry.dir entries).WellNamed)
    (h : ∀ entry ∈ entries, ∃ places, Finds entry.1 entry.2 places) :
    ∃ places : List (List String),
      (∀ path, walk path entries = places.map (Path.below path)) ∧
      places.Pairwise (· < ·) ∧
      ∀ place, place ∈ places ↔
        (∃ content, (Entry.dir entries).at? place = some (.file content)) ∧ Selected place := by
  have hdistinct := (hnamed [] entries rfl).1
  have hperm := perm_inOrder entries
  obtain ⟨places, hwalked, hordered, hmem⟩ := exists_finds_among (pairwise_inOrder hdistinct)
    fun entry hentry => h entry (hperm.mem_iff.mp hentry)
  refine ⟨places, fun path => ?_, hordered, fun place => (hmem place).trans ?_⟩
  · rw [walk, walkAll_eq, hwalked]
  · constructor
    · rintro ⟨entry, hentry, rest, rfl, ⟨content, hfile⟩, hselected⟩
      refine ⟨⟨content, ?_⟩, hselected⟩
      rw [Entry.at?_cons, (Entry.lookup_eq_some_iff hdistinct).mpr (hperm.mem_iff.mp hentry)]
      exact hfile
    · rintro ⟨⟨content, hfile⟩, hselected⟩
      cases place with
      | nil => cases hfile
      | cons name rest =>
        rw [Entry.at?_cons] at hfile
        obtain ⟨e, hlookup, hfile⟩ := Option.bind_eq_some_iff.mp hfile
        have hentry := (Entry.lookup_eq_some_iff hdistinct).mp hlookup
        exact ⟨(name, e), hperm.mem_iff.mpr hentry, rest, rfl, ⟨content, hfile⟩, hselected⟩

/-- What is found below an entry, by induction over directories. -/
theorem exists_finds {e : Entry} (h : e.WellNamed) (name : String) :
    ∃ places, Finds name e places := by
  induction e using Entry.induct generalizing name with
  | file content =>
    by_cases hsource : isSourceName name = true
    · refine ⟨[[]], fun path => if_pos hsource, List.pairwise_singleton _ _, fun place => ?_⟩
      cases place with
      | nil => simpa [Entry.at?, selected_singleton] using isSourceName_iff.mp hsource
      | cons next rest => simp [Entry.at?]
    · refine ⟨[], fun path => if_neg hsource, .nil, fun place => ?_⟩
      cases place with
      | nil =>
        have hnot : ¬ IsSourceName name := fun hname => hsource (isSourceName_iff.mpr hname)
        simp [Entry.at?, selected_singleton, hnot]
      | cons next rest => simp [Entry.at?]
  | dir entries ih =>
    obtain ⟨places, hwalked, hordered, hmem⟩ :=
      exists_walk h fun entry hentry => ih entry hentry (h.of_mem hentry) entry.1
    by_cases hskip : isSkippedName name = true
    · refine ⟨[], fun path => if_pos hskip, .nil, fun place => ?_⟩
      cases place with
      | nil => simp [Entry.at?]
      | cons next rest =>
        simp [selected_cons_cons, isSkippedName_iff.mp hskip]
    · refine ⟨places, fun path => (if_neg hskip).trans (hwalked path), hordered, fun place => ?_⟩
      rw [hmem]
      cases place with
      | nil => simp [Entry.at?]
      | cons next rest =>
        have hnot : ¬ PassedOver name := fun hname => hskip (isSkippedName_iff.mpr hname)
        simp [selected_cons_cons, hnot]

/-! ## 4. What is collected -/

/-- A directory is walked and anything else is taken as it is. Names lead from the directory to the
files that are found, which are its source files but for those in directories that are passed over;
they come in the order of these names. Each path that is collected leads to such a file, and no
path comes twice. -/
theorem collect_finds (d : Disk) (path : String) :
    (∀ entries, d.find path = .ok (.dir entries) → (Entry.dir entries).WellNamed →
      ∃ places : List (List String),
        collect d path = places.map (Path.below path) ∧
        places.Pairwise (· < ·) ∧
        (∀ place, place ∈ places ↔
          (∃ content, (Entry.dir entries).at? place = some (.file content)) ∧ Selected place) ∧
        (∀ place ∈ places, ∃ content, (Entry.dir entries).at? place = some (.file content) ∧
          d.find (Path.below path place) = .ok (.file content)) ∧
        (collect d path).Nodup) ∧
    ((∀ entries, d.find path ≠ .ok (.dir entries)) → collect d path = [path]) := by
  constructor
  · intro entries hfind hnamed
    obtain ⟨places, hwalked, hordered, hmem⟩ :=
      exists_walk hnamed fun entry hentry => exists_finds (hnamed.of_mem hentry) entry.1
    obtain ⟨start, hstart, hat⟩ := Disk.find_eq_ok.mp hfind
    have hcollect : collect d path = places.map (Path.below path) := by
      rw [collect, hfind]
      exact hwalked path
    have hlocate : ∀ place ∈ places, d.locate (Path.below path place) = .ok (start ++ place) := by
      intro place hplace
      obtain ⟨⟨content, hfile⟩, -⟩ := (hmem place).mp hplace
      exact Disk.locate_below hstart hat hnamed (by rw [hfile]; rfl)
    refine ⟨places, hcollect, hordered, hmem, fun place hplace => ?_, ?_⟩
    · obtain ⟨⟨content, hfile⟩, -⟩ := (hmem place).mp hplace
      refine ⟨content, hfile, Disk.find_eq_ok.mpr ⟨_, hlocate place hplace, ?_⟩⟩
      rw [Entry.at?_append, hat]
      exact hfile
    · -- Two paths that are the same lead to the same place.
      rw [hcollect]
      refine List.Nodup.map_on (fun place hplace other hother heq => ?_) ?_
      · have hsame := (hlocate place hplace).symm.trans (heq ▸ hlocate other hother)
        exact List.append_cancel_left (Except.ok.inj hsame)
      · exact hordered.imp fun hlt => ne_of_lt hlt
  · intro hother
    rw [collect]
    split
    · next entries hfind => exact absurd hfind (hother entries)
    · rfl

/-- A directory that would be passed over, had it not been asked for. In it are a directory that is
called like a source file, one that is passed over, and files that are called like the latter. -/
theorem collect_finds_target :
    let entries : List (String × Entry) :=
      [("b.edn", .file .empty),
        ("a.clj", .dir [("x.cljs", .file .empty), ("notes.md", .file .empty)]),
        ("a", .dir [("y.clj", .file .empty)]), (".git", .dir [("hook.clj", .file .empty)]),
        (".q.cljc", .file .empty), (".clj", .file .empty), ("target", .file .empty)]
    let d : Disk := { root := .dir [("target", .dir entries)] }
    d.find "target" = .ok (.dir entries) ∧ (Entry.dir entries).WellNamed ∧
      collect d "target"
        = ["target/.q.cljc", "target/a/y.clj", "target/a.clj/x.cljs", "target/b.edn"] ∧
      (∃ places : List (List String),
        collect d "target" = places.map (Path.below "target") ∧ places.Pairwise (· < ·) ∧
        ∀ place, place ∈ places ↔
          (∃ content, (Entry.dir entries).at? place = some (.file content)) ∧ Selected place) ∧
      (∀ entries, d.find "target/b.edn" ≠ .ok (.dir entries)) ∧
      collect d "target/b.edn" = ["target/b.edn"] := by
  intro entries d
  have hfind : d.find "target" = .ok (.dir entries) := rfl
  have hnamed : (Entry.dir entries).WellNamed := by
    simp only [entries, Entry.wellNamed_dir, List.forall_mem_cons, Entry.wellNamed_file,
      List.not_mem_nil, false_implies, implies_true]
    decide
  have hfile : ∀ entries, d.find "target/b.edn" ≠ .ok (.dir entries) := by
    intro entries h
    cases h
  obtain ⟨places, hcollect, hordered, hmem, -⟩ := (collect_finds d "target").1 entries hfind hnamed
  exact ⟨hfind, hnamed, by decide, ⟨places, hcollect, hordered, hmem⟩, hfile,
    (collect_finds d "target/b.edn").2 hfile⟩

end Command

end CljFormat
