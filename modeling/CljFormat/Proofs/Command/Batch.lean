/-
CljFormat.Proofs.Command.Batch — a batch touches the files it should.

What becomes of a file depends on the file alone, as long as no two of the collected paths lead to
the same file. Then what a batch finds at a path is what was there at first, whatever it did to
other files before. `Stores` says what the disk holds behind some of the files, and `Reports` what
was said of them; each step carries both on (`took_step`), and so does a whole batch.
-/
import CljFormat.Command.Run
import CljFormat.Proofs.Disk

namespace CljFormat.Command

open Entry (SameShape)

variable {d disk : Disk} {mode : BatchMode} {config : Config} {done : List String} {path : String}

/-! ## 1. What a file calls for -/

/-- The text of the file at `path` and what it is formatted to, if it can be read and formatted. -/
def texts? (d : Disk) (config : Config) (path : String) : Option (String × String) :=
  match d.readText path with
  | .error _ => none
  | .ok source =>
    match format config source with
    | .error _ => none
    | .ok text => some (source, text)

/-- The new text of the file at `path`, if it can be read and formatted and formatting changes
it. -/
def newText? (d : Disk) (config : Config) (path : String) : Option String :=
  match texts? d config path with
  | none => none
  | some (source, text) => if source = text then none else some text

/-- What is shown of the file at `path`. -/
def shownOf (d : Disk) (mode : BatchMode) (config : Config) (path : String) : String :=
  match texts? d config path with
  | none => ""
  | some (source, text) => ((lineDiff source text).map (Batch.shown mode path)).getD ""

theorem texts_eq_some_iff {source text : String} :
    texts? d config path = some (source, text) ↔
      d.readText path = .ok source ∧ format config source = .ok text := by
  unfold texts?
  cases d.readText path with
  | error e => simp
  | ok source' =>
    cases hformat : format config source' with
    | error e =>
      have hnot : source' = source → ¬ format config source = .ok text := by
        rintro rfl
        simp [hformat]
      simpa [hformat] using hnot
    | ok text' =>
      simp only [hformat, Option.some.injEq, Prod.mk.injEq, Except.ok.injEq]
      constructor
      · rintro ⟨rfl, rfl⟩
        exact ⟨rfl, hformat⟩
      · rintro ⟨rfl, htext⟩
        exact ⟨rfl, Except.ok.inj (hformat.symm.trans htext)⟩

theorem newText_eq_some_iff {text : String} :
    newText? d config path = some text ↔
      ∃ source, d.readText path = .ok source ∧ format config source = .ok text ∧
        source ≠ text := by
  unfold newText?
  cases htexts : texts? d config path with
  | none =>
    have hnone : ∀ source, d.readText path = .ok source → format config source ≠ .ok text := by
      intro source hread hformat
      simp [texts_eq_some_iff.mpr ⟨hread, hformat⟩] at htexts
    simp only [reduceCtorEq, false_iff, not_exists, not_and]
    exact fun source hread hformat => absurd hformat (hnone source hread)
  | some texts =>
    obtain ⟨source, text'⟩ := texts
    obtain ⟨hread, hformat⟩ := texts_eq_some_iff.mp htexts
    simp only [hread, Except.ok.injEq, exists_eq_left', hformat]
    split
    · next heq =>
      subst heq
      simp
    · next hne =>
      constructor
      · rintro ⟨⟩
        exact ⟨rfl, hne⟩
      · rintro ⟨rfl, -⟩
        rfl

theorem lineDiff_eq_none_iff (source text : String) :
    lineDiff source text = none ↔ source = text := by
  rw [lineDiff]
  split <;> simp_all

/-- A file is given up, or left alone, or counted, shown and perhaps written. -/
theorem step_cases (mode : BatchMode) (config : Config) (b : Batch) (path : String) :
    (texts? b.disk config path = none ∧ ∃ notice, b.step mode config path = b.giveUp notice) ∨
    (∃ text, texts? b.disk config path = some (text, text) ∧ b.step mode config path = b) ∨
    (∃ source text difference, texts? b.disk config path = some (source, text) ∧ source ≠ text ∧
      lineDiff source text = some difference ∧
      b.step mode config path
        = (let counted := { b with
            changed := b.changed + 1
            output := b.output ++ Batch.shown mode path difference }
          if mode.write then counted.store path text else counted)) := by
  cases hread : b.disk.readText path with
  | error e => exact .inl ⟨by simp [texts?, hread], _, by rw [Batch.step, hread]⟩
  | ok source =>
    cases hformat : format config source with
    | error e => exact .inl ⟨by simp [texts?, hread, hformat], _, by
        simp only [Batch.step, hread, hformat]; rfl⟩
    | ok text =>
      have htexts : texts? b.disk config path = some (source, text) := by
        simp [texts?, hread, hformat]
      right
      cases hdiff : lineDiff source text with
      | none =>
        obtain rfl := (lineDiff_eq_none_iff source text).mp hdiff
        exact .inl ⟨source, htexts, by simp only [Batch.step, hread, hformat, hdiff]⟩
      | some difference =>
        have hne : source ≠ text := by
          intro heq
          rw [(lineDiff_eq_none_iff source text).mpr heq] at hdiff
          cases hdiff
        refine .inr ⟨source, text, difference, htexts, hne, hdiff, ?_⟩
        simp only [Batch.step, hread, hformat, hdiff]

/-! ## 2. What the disk holds behind some files -/

/-- The disk behind the files `done`, if `d` is the one before them: the new texts of these files
are at their places, and all else is as it was. -/
structure Stores (d : Disk) (mode : BatchMode) (config : Config) (done : List String)
    (disk : Disk) : Prop where
  cwd : disk.cwd = d.cwd
  shape : SameShape d.root disk.root
  kept : ∀ place, (∀ path ∈ done, d.locate path = .ok place →
      mode.write = true → newText? d config path = none) →
    disk.root.look? place = d.root.look? place
  stored : mode.write = true → ∀ path ∈ done, ∀ text ∈ newText? d config path,
    ∀ place, d.locate path = .ok place → disk.root.look? place = some (some text.toUTF8)

/-- Two paths do not lead to the same place. -/
def Apart (d : Disk) (path path' : String) : Prop :=
  ∀ place, d.locate path = .ok place → d.locate path' ≠ .ok place

theorem Stores.start (d : Disk) (mode : BatchMode) (config : Config) : Stores d mode config [] d :=
  ⟨rfl, fun _ => rfl, fun _ _ => rfl, fun _ _ hpath => absurd hpath List.not_mem_nil⟩

/-- What is at the place of a file that comes later is as it was. -/
theorem Stores.texts (h : Stores d mode config done disk) (hnew : ∀ p ∈ done, Apart d p path) :
    disk.readText path = d.readText path :=
  Disk.readText_congr h.cwd h.shape fun place hplace =>
    h.kept place fun p hp hlocate => absurd hplace (hnew p hp place hlocate)

/-- A file that is not written leaves the disk alone. -/
theorem Stores.keep (h : Stores d mode config done disk)
    (hpath : mode.write = true → newText? d config path = none) :
    Stores d mode config (done ++ [path]) disk := by
  refine ⟨h.cwd, h.shape, fun place hplace => h.kept place fun p hp => ?_, ?_⟩
  · exact hplace p (List.mem_append_left _ hp)
  · intro hwrite p hp text htext
    rcases List.mem_append.mp hp with hp | hp
    · exact h.stored hwrite p hp text htext
    · obtain rfl := List.mem_singleton.mp hp
      simp [hpath hwrite] at htext

/-- A file that is written has its new text, and all else is as it was. -/
theorem Stores.write (h : Stores d mode config done disk) (hnew : ∀ p ∈ done, Apart d p path)
    {place : List String} {old : ByteArray} {text : String} (hwrite : mode.write = true)
    (hplace : d.locate path = .ok place) (hlook : disk.root.look? place = some (some old))
    (htext : newText? d config path = some text) :
    Stores d mode config (done ++ [path]) (disk.withText place text) := by
  have hput := Entry.look?_put hlook text.toUTF8
  refine ⟨h.cwd, ?_, ?_, ?_⟩
  · intro names
    rw [← h.shape names]
    exact SameShape.put hlook text.toUTF8 names
  · intro others hothers
    have hne : others ≠ place := by
      rintro rfl
      have hnone := hothers path (by simp) hplace hwrite
      simp [hnone] at htext
    show (disk.root.put _ _).look? others = _
    rw [hput, if_neg hne]
    exact h.kept others fun p hp => hothers p (List.mem_append_left _ hp)
  · intro _ p hp text' htext' place' hplace'
    show (disk.root.put _ _).look? place' = _
    rw [hput]
    rcases List.mem_append.mp hp with hp | hp
    · have hne : place' ≠ place := by
        rintro rfl
        exact hnew p hp place' hplace' hplace
      rw [if_neg hne]
      exact h.stored hwrite p hp text' htext' place' hplace'
    · obtain rfl := List.mem_singleton.mp hp
      have hsame : place' = place := Except.ok.inj (hplace'.symm.trans hplace)
      have htexts : text' = text := Option.some.inj (htext'.symm.trans htext)
      rw [if_pos hsame, htexts]

/-! ## 3. What is said of some files -/

/-- What a batch has shown, written and counted behind the files `done`, if `d` is the disk before
them. -/
structure Reports (d : Disk) (mode : BatchMode) (config : Config) (done : List String)
    (b : Batch) : Prop where
  output : b.output = String.join (done.map (shownOf d mode config))
  written : b.written = if mode.write then
    done.filterMap fun path => (newText? d config path).map fun text => (path, text) else []
  changed : b.changed = done.countP fun path => (newText? d config path).isSome
  errors : b.errors = done.countP fun path => (texts? d config path).isNone

theorem Reports.snoc {b b' : Batch} (h : Reports d mode config done b)
    (houtput : b'.output = b.output ++ shownOf d mode config path)
    (hwritten : b'.written = b.written ++ if mode.write then
      ((newText? d config path).map fun text => (path, text)).toList else [])
    (hchanged : b'.changed = b.changed + if (newText? d config path).isSome then 1 else 0)
    (herrors : b'.errors = b.errors + if (texts? d config path).isNone then 1 else 0) :
    Reports d mode config (done ++ [path]) b' := by
  refine ⟨?_, ?_, ?_, ?_⟩
  · rw [houtput, h.output, List.map_append, String.join_append]
    simp
  · rw [hwritten, h.written]
    cases mode.write with
    | false => rfl
    | true => cases hnew : newText? d config path <;> simp [hnew]
  · rw [hchanged, h.changed, List.countP_append, List.countP_singleton]
  · rw [herrors, h.errors, List.countP_append, List.countP_singleton]

/-! ## 4. Batches -/

/-- A batch behind the files `done`. -/
structure Took (d : Disk) (mode : BatchMode) (config : Config) (done : List String)
    (b : Batch) : Prop where
  stores : Stores d mode config done b.disk
  reports : Reports d mode config done b

theorem Took.start (d : Disk) (mode : BatchMode) (config : Config) :
    Took d mode config [] { disk := d } := by
  refine ⟨Stores.start d mode config, rfl, ?_, rfl, rfl⟩
  cases mode.write <;> rfl

/-- Taking a file that none of the earlier paths lead to. -/
theorem took_step {b : Batch} (h : Took d mode config done b) (hnew : ∀ p ∈ done, Apart d p path) :
    Took d mode config (done ++ [path]) (b.step mode config path) := by
  have hread := h.stores.texts hnew
  have hsame : texts? b.disk config path = texts? d config path := by simp only [texts?, hread]
  rcases step_cases mode config b path with ⟨htexts, notice, hstep⟩ | ⟨text, htexts, hstep⟩ |
    ⟨source, text, difference, htexts, hne, hdiff, hstep⟩
  · rw [hsame] at htexts
    have hnone : newText? d config path = none := by simp [newText?, htexts]
    rw [hstep]
    refine ⟨h.stores.keep fun _ => hnone, h.reports.snoc ?_ ?_ ?_ ?_⟩
    · simp [Batch.giveUp, shownOf, htexts]
    · simp [Batch.giveUp, hnone]
    · simp [Batch.giveUp, hnone]
    · simp [Batch.giveUp, htexts]
  · rw [hsame] at htexts
    have hnone : newText? d config path = none := by simp [newText?, htexts]
    have hnodiff : lineDiff text text = none := (lineDiff_eq_none_iff text text).mpr rfl
    rw [hstep]
    refine ⟨h.stores.keep fun _ => hnone, h.reports.snoc ?_ ?_ ?_ ?_⟩
    · simp [shownOf, htexts, hnodiff]
    · simp [hnone]
    · simp [hnone]
    · simp [htexts]
  · have hsource := (texts_eq_some_iff.mp htexts).1
    rw [hsame] at htexts
    have hsome : newText? d config path = some text := by simp [newText?, htexts, hne]
    have hshown : shownOf d mode config path = Batch.shown mode path difference := by
      simp [shownOf, htexts, hdiff]
    rw [hstep]
    cases hwrite : mode.write with
    | false =>
      refine ⟨h.stores.keep (by simp [hwrite]), h.reports.snoc ?_ ?_ ?_ ?_⟩
      · simp [hshown]
      · simp [hwrite]
      · simp [hsome]
      · simp [htexts]
    | true =>
      obtain ⟨place, old, hplace, hlook, hwritten⟩ := Disk.writeText_of_readText hsource text
      rw [Disk.locate_congr h.stores.cwd h.stores.shape] at hplace
      simp only [if_pos, Batch.store, hwritten]
      refine ⟨h.stores.write hnew hwrite hplace hlook hsome, h.reports.snoc ?_ ?_ ?_ ?_⟩
      · simp [hshown]
      · simp [hwrite, hsome]
      · simp [hsome]
      · simp [htexts]

/-- A whole batch, by induction on the files that are still to be taken. -/
theorem took_foldl {b : Batch} {todo : List String} (h : Took d mode config done b)
    (hapart : (done ++ todo).Pairwise (Apart d)) :
    Took d mode config (done ++ todo) (todo.foldl (Batch.step mode config) b) := by
  induction todo generalizing b done with
  | nil => simpa using h
  | cons path todo ih =>
    have hnew : ∀ p ∈ done, Apart d p path := fun p hp =>
      (List.pairwise_append.mp hapart).2.2 p hp path List.mem_cons_self
    rw [List.append_cons] at hapart ⊢
    exact ih (took_step h hnew) hapart

/-- With `list` alone, a file that changes is shown by its path. -/
theorem shownOf_list (hlist : mode.list = true) (hdiff : mode.diff = false) (path : String) :
    shownOf d mode config path
      = if (newText? d config path).isSome then path ++ "\n" else "" := by
  unfold shownOf newText?
  cases texts? d config path with
  | none => rfl
  | some texts =>
    obtain ⟨source, text⟩ := texts
    by_cases heq : source = text
    · simp [lineDiff, heq]
    · simp [lineDiff, heq, Batch.shown, hlist, hdiff]

theorem join_map_filter (p : String → Bool) (g : String → String) (files : List String) :
    String.join (files.map fun path => if p path then g path else "")
      = String.join ((files.filter p).map g) := by
  induction files with
  | nil => rfl
  | cons path files ih => cases hp : p path <;> simp [hp, ih]

/-- If no two of the collected paths lead to the same file, a batch changes a file only in order to
write it, and only if it can be read and formatted and comes out different. All these files then
have their new texts. With `list` alone, their paths are shown in order. The batch fails if a file
is given up, or if a file would change and changes are shown. -/
theorem formatFiles_touches (mode : BatchMode) (config : Config) (paths : List String)
    (hapart : (paths.flatMap (collect d)).Pairwise (Apart d)) :
    let files := paths.flatMap (collect d)
    let o := formatFiles d mode config paths
    (∀ place, o.disk.root.look? place ≠ d.root.look? place →
      mode.write = true ∧ ∃ path ∈ files, ∃ source text, d.locate path = .ok place ∧
        d.readText path = .ok source ∧ format config source = .ok text ∧ source ≠ text) ∧
    (mode.write = true → ∀ path ∈ files, ∀ source text, d.readText path = .ok source →
      format config source = .ok text → source ≠ text → o.disk.readText path = .ok text) ∧
    (o.written = if mode.write then
      files.filterMap fun path => (newText? d config path).map fun text => (path, text) else []) ∧
    (mode.list = true → mode.diff = false → o.output
      = String.join ((files.filter fun path => (newText? d config path).isSome).map (· ++ "\n"))) ∧
    o.exitCode = if files.any (fun path => (texts? d config path).isNone) ||
      ((mode.list || mode.diff) && files.any fun path => (newText? d config path).isSome)
      then 1 else 0 := by
  intro files o
  obtain ⟨hstores, hreports⟩ :=
    @took_foldl d mode config [] { disk := d } files (Took.start d mode config) hapart
  rw [List.nil_append] at hstores hreports
  refine ⟨?_, ?_, hreports.written, ?_, ?_⟩
  · intro place hplace
    refine Classical.byContradiction fun hnone => ?_
    refine hplace (hstores.kept place fun path hpath hlocate hwrite => ?_)
    cases hnew : newText? d config path with
    | none => rfl
    | some text =>
      obtain ⟨source, hread, hformat, hne⟩ := newText_eq_some_iff.mp hnew
      exact absurd ⟨hwrite, path, hpath, source, text, hlocate, hread, hformat, hne⟩ hnone
  · intro hwrite path hpath source text hread hformat hne
    obtain ⟨place, old, hplace, -, -⟩ := Disk.writeText_of_readText hread text
    have hnew := newText_eq_some_iff.mpr ⟨source, hread, hformat, hne⟩
    have hlook := hstores.stored hwrite path hpath text hnew place hplace
    exact Disk.readText_of_look? ((Disk.locate_congr hstores.cwd hstores.shape path).trans hplace)
      hlook
  · intro hlist hdiff
    calc o.output = String.join (files.map (shownOf d mode config)) := hreports.output
      _ = String.join (files.map fun path =>
            if (newText? d config path).isSome then path ++ "\n" else "") := by
          rw [List.map_congr_left fun path _ => shownOf_list hlist hdiff path]
      _ = _ := join_map_filter _ _ files
  · have hany : ∀ p : String → Bool, decide (0 < files.countP p) = files.any p := by
      intro p
      rw [Bool.eq_iff_iff, decide_eq_true_iff, List.countP_pos_iff, List.any_eq_true]
    have hcode : o.exitCode
        = if batchFails mode (files.foldl (Batch.step mode config) { disk := d }) then 1
          else 0 := rfl
    rw [hcode, batchFails, hreports.errors, hreports.changed, hany, hany]

/-- A batch that lists and writes the files of a directory, one of which cannot be formatted: the
other is shown and has its new text, and the batch fails. -/
theorem formatFiles_touches_directory :
    let d : Disk :=
      { root := .dir [("b.clj", .file "(".toUTF8), ("a.clj", .file "(f x\ny)".toUTF8)] }
    let o := formatFiles d { list := true, write := true } {} ["."]
    (["."].flatMap (collect d)).Pairwise (Apart d) ∧
      o.disk.readText "./a.clj" = .ok "(f x\n   y)" ∧ o.output = "./a.clj\n" ∧ o.exitCode = 1 := by
  intro d o
  have hfiles : ["."].flatMap (collect d) = ["./a.clj", "./b.clj"] := by decide
  have hplaceA : d.locate "./a.clj" = .ok ["a.clj"] := rfl
  have hplaceB : d.locate "./b.clj" = .ok ["b.clj"] := rfl
  have hapart : (["."].flatMap (collect d)).Pairwise (Apart d) := by
    simp [hfiles, Apart, hplaceA, hplaceB]
  have hreadA : d.readText "./a.clj" = .ok "(f x\ny)" := Disk.readText_of_look? hplaceA rfl
  have hreadB : d.readText "./b.clj" = .ok "(" := Disk.readText_of_look? hplaceB rfl
  have hformatA : format {} "(f x\ny)" = .ok "(f x\n   y)" := rfl
  obtain ⟨e, hformatB⟩ : ∃ e, format {} "(" = .error e := ⟨_, rfl⟩
  have htextsA : texts? d {} "./a.clj" = some ("(f x\ny)", "(f x\n   y)") :=
    texts_eq_some_iff.mpr ⟨hreadA, hformatA⟩
  have htextsB : texts? d {} "./b.clj" = none := by simp [texts?, hreadB, hformatB]
  obtain ⟨-, hstored, -, hshown, hcode⟩ :=
    formatFiles_touches { list := true, write := true } {} ["."] hapart
  rw [hfiles] at hstored hshown hcode
  refine ⟨hapart, ?_, ?_, ?_⟩
  · exact hstored rfl "./a.clj" (by simp) _ _ hreadA hformatA (by decide)
  · exact (hshown rfl rfl).trans (by simp [newText?, htextsA, htextsB])
  · exact hcode.trans (by simp [htextsB])

end CljFormat.Command
