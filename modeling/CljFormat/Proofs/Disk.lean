/-
CljFormat.Proofs.Disk — a disk as a map from places to contents.

Names that lead from the root to a file or a directory are a place. What is at a place, the entries
of directories aside, is all that paths and reads depend on (`Entry.look?`): a path leads through
directories and ends at a place (`locate_congr`), and a read asks for what is there (`readText_eq`).

Writing a file that is there changes what is at its place and nothing else (`look?_put`). So every
path leads where it led before, the file has its new text (`readText_of_look?`), and a file at
another place has the text it had (`readText_congr`).
-/
import CljFormat.Disk

namespace CljFormat

variable {e e' : Entry} {name : String} {names others : List String} {content : ByteArray}

/-- Text is read as it was written. -/
theorem decodeText_toUTF8 (text : String) : decodeText text.toUTF8 = .ok text := by
  have hvalid : text.toUTF8.IsValidUTF8 := text.isValidUTF8
  rw [decodeText, String.fromUTF8?, dif_pos hvalid]
  rfl

/-! ## 1. What is at a place -/

namespace Entry

/-- What a file holds, and nothing for a directory. -/
def content? : Entry → Option ByteArray
  | file content => some content
  | dir _ => none

/-- What is at `names` below an entry, the entries of directories aside. -/
def look? (names : List String) (e : Entry) : Option (Option ByteArray) :=
  (e.at? names).map content?

theorem at?_of_look? (h : e.look? names = some (some content)) :
    e.at? names = some (.file content) := by
  cases hat : e.at? names with
  | none => simp [look?, hat] at h
  | some below => cases below <;> simp_all [look?, content?]

theorem at?_append (names others : List String) (e : Entry) :
    e.at? (names ++ others) = (e.at? names).bind (at? others) := by
  induction names generalizing e with
  | nil => rfl
  | cons name names ih =>
    cases e with
    | file content => rfl
    | dir entries =>
      show (entries.lookup name).bind (at? (names ++ others)) = _
      rw [at?, Option.bind_assoc]
      congr 1
      funext e
      exact ih e

/-- Whether a directory has an entry of a name depends on what is at the place of the entry. -/
theorem isSome_lookup {entries : List (String × Entry)} (h : e.at? names = some (.dir entries))
    (name : String) : (entries.lookup name).isSome = (e.look? (names ++ [name])).isSome := by
  rw [look?, Option.isSome_map, at?_append, h]
  show _ = ((entries.lookup name).bind fun e => some e).isSome
  cases entries.lookup name <;> rfl

/-! ## 2. Putting a file in place of another -/

/-- Entries of which one is changed. -/
theorem lookup_map_entry (g : Entry → Entry) (name other : String)
    (entries : List (String × Entry)) :
    (entries.map fun entry => if entry.1 = name then (entry.1, g entry.2) else entry).lookup other
      = (entries.lookup other).map fun e => if other = name then g e else e := by
  induction entries with
  | nil => rfl
  | cons entry entries ih =>
    obtain ⟨key, e⟩ := entry
    have hkey : (if key = name then (key, g e) else (key, e))
        = (key, if key = name then g e else e) := by
      split <;> rfl
    rw [List.map_cons, hkey]
    by_cases hfound : other = key
    · subst hfound
      simp
    · have hother : (other == key) = false := by simpa using hfound
      simp only [List.lookup_cons, hother, ih]

/-- A file that is put in the place of a file changes what is at that place and nothing else. -/
theorem look?_put {old : ByteArray} (h : e.look? names = some (some old)) (content : ByteArray)
    (others : List String) :
    (e.put content names).look? others
      = if others = names then some (some content) else e.look? others := by
  induction names generalizing e others with
  | nil =>
    cases e with
    | dir entries => simp [look?, at?, content?] at h
    | file content => cases others <;> simp [put, look?, at?, content?]
  | cons name names ih =>
    cases e with
    | file content => simp [look?, at?] at h
    | dir entries =>
      obtain ⟨below, hlookup⟩ : ∃ below, entries.lookup name = some below := by
        cases hlookup : entries.lookup name with
        | none => simp [look?, at?, hlookup] at h
        | some below => exact ⟨below, rfl⟩
      have hbelow : below.look? names = some (some old) := by
        simpa [look?, at?, hlookup] using h
      rw [put, if_pos (by simp [hlookup])]
      cases others with
      | nil => simp [look?, at?, content?]
      | cons other others =>
        have hstep : ∀ entries : List (String × Entry), (dir entries).look? (other :: others)
            = (entries.lookup other).bind fun e => e.look? others :=
          fun _ => Option.map_bind
        rw [hstep, hstep, lookup_map_entry]
        by_cases hname : other = name
        · subst hname
          simp [hlookup, ih hbelow]
        · simp [hname]

/-! ## 3. Paths -/

/-- Two entries have files and directories at the same places. -/
def SameShape (e e' : Entry) : Prop :=
  ∀ names, (e'.look? names).map Option.isSome = (e.look? names).map Option.isSome

/-- A file that is put in the place of a file changes no shape. -/
theorem SameShape.put {old : ByteArray} (h : e.look? names = some (some old))
    (content : ByteArray) : SameShape e (e.put content names) := by
  intro others
  rw [look?_put h]
  by_cases hsame : others = names
  · simp [hsame, h]
  · rw [if_neg hsame]

end Entry

namespace Disk

open Entry (SameShape)

/-- Names lead to the same place through entries of the same shape. -/
theorem follow_congr (h : SameShape e e') (place names : List String) :
    follow e' place names = follow e place names := by
  induction names generalizing place with
  | nil => rfl
  | cons name names ih =>
    have hplace := h place
    cases hat : e.at? place with
    | none =>
      have hat' : e'.at? place = none := by simpa [Entry.look?, hat] using hplace
      simp only [follow, hat, hat']
    | some below =>
      obtain ⟨below', hat', hkind⟩ : ∃ below', e'.at? place = some below' ∧
          below'.content?.isSome = below.content?.isSome := by
        simpa [Entry.look?, hat] using hplace
      match below, below', hkind with
      | .file _, .file _, _ => simp only [follow, hat, hat']
      | .dir entries, .dir entries', _ =>
        have hlookup : (entries'.lookup name).isSome = (entries.lookup name).isSome := by
          rw [Entry.isSome_lookup hat, Entry.isSome_lookup hat']
          simpa using congrArg Option.isSome (h (place ++ [name]))
        simp only [follow, hat, hat', hlookup, ih]

variable {d d' : Disk} {path text source : String} {place : List String}

/-- Paths lead to the same place on disks of the same shape. -/
theorem locate_congr (hcwd : d'.cwd = d.cwd) (h : SameShape d.root d'.root) (path : String) :
    d'.locate path = d.locate path := by
  rw [locate, locate, hcwd, follow_congr h]

/-- A file is read from the place that its path leads to. -/
theorem readText_eq (d : Disk) (path : String) :
    d.readText path = (d.locate path).bind fun place =>
      match d.root.look? place with
      | none => .error .notFound
      | some none => .error .isDirectory
      | some (some content) => decodeText content := by
  cases hlocate : d.locate path with
  | error e =>
    rw [readText, find, hlocate]
    rfl
  | ok place =>
    rw [readText, find, hlocate]
    cases hat : d.root.at? place with
    | none => simp [Entry.look?, hat, bind, Except.bind, throw, throwThe, MonadExceptOf.throw]
    | some below =>
      cases below <;> simp [Entry.look?, Entry.content?, hat, bind, Except.bind, throw, throwThe,
        MonadExceptOf.throw, pure, Except.pure]

/-- The disk with the text of the file at a place replaced. -/
def withText (d : Disk) (place : List String) (text : String) : Disk :=
  { d with root := d.root.put text.toUTF8 place }

/-- A file that can be read can be written, which changes what is at its place. -/
theorem writeText_of_readText (h : d.readText path = .ok source) (text : String) :
    ∃ place old, d.locate path = .ok place ∧ d.root.look? place = some (some old) ∧
      d.writeText path text = .ok (d.withText place text) := by
  rw [readText_eq] at h
  cases hlocate : d.locate path with
  | error e => simp [hlocate, Except.bind] at h
  | ok place =>
    simp only [hlocate, Except.bind] at h
    cases hlook : d.root.look? place with
    | none => simp [hlook] at h
    | some content? =>
      cases content? with
      | none => simp [hlook] at h
      | some old =>
        refine ⟨place, old, rfl, hlook, ?_⟩
        rw [writeText, hlocate]
        simp only [bind, Except.bind, Entry.at?_of_look? hlook]
        rfl

/-- What a path says of a file is the same on disks of the same shape that hold the same at its
place. -/
theorem readText_congr (hcwd : d'.cwd = d.cwd) (hshape : SameShape d.root d'.root)
    (hlook : ∀ place, d.locate path = .ok place → d'.root.look? place = d.root.look? place) :
    d'.readText path = d.readText path := by
  rw [readText_eq, readText_eq, locate_congr hcwd hshape]
  cases hlocate : d.locate path with
  | error e => rfl
  | ok place => simp only [Except.bind, hlook place hlocate]

theorem readText_of_look? (hlocate : d.locate path = .ok place)
    (hlook : d.root.look? place = some (some text.toUTF8)) : d.readText path = .ok text := by
  rw [readText_eq, hlocate]
  simp only [Except.bind, hlook, decodeText_toUTF8]

end Disk

end CljFormat
