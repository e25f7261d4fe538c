/-
CljFormat.Proofs.DotConfig — which settings files are loaded, and what they mean.

An entry of the overrides is a group of names and the style that they get. What is loaded is what
writes entries (`addPairs_eq_ok`), and its meaning is that of its entries one after the other: every
name has the style of the last one that lists it (`load_entries`).

Discarded forms are not passed over. Their place in a map, in the list of overrides or among the
names of a group counts, so that a discarded form in any of the three makes a settings file that is
loaded into one that is refused (`load_discarded`).
-/
import CljFormat.DotConfig
import CljFormat.Proofs.Lists
import CljFormat.Proofs.Reader.Written
import Std.Data.TreeMap.Lemmas

namespace CljFormat.DotConfig

/-! ## 1. Entries -/

/-- A name as it is written. -/
def nameForm (name : String) : Form Unit := .atom () (.string name)

/-- The key of the overrides. -/
def overridesKey : Form Unit := .atom () (.keyword ":indent-overrides")

/-- What lists the names of an entry: a string, or a list or vector of strings. -/
inductive Group
  | single (name : String)
  | list (names : List String)
  | vector (names : List String)
deriving DecidableEq, Repr

/-- The names that a group lists. -/
def Group.names : Group → List String
  | single name => [name]
  | list names | vector names => names

/-- A group as it is written. -/
def Group.form : Group → Form Unit
  | single name => nameForm name
  | list names => .seq () .list (names.map nameForm)
  | vector names => .seq () .vector (names.map nameForm)

/-- A group of names and their style. -/
structure Entry where
  group : Group
  style : IndentStyle
deriving DecidableEq, Repr

namespace Entry

/-- The names that an entry lists. -/
def names (e : Entry) : List String := e.group.names

/-- An entry as it is written. -/
def forms (e : Entry) : List (Form Unit) :=
  [e.group.form, .atom () (.keyword e.style.keyword)]

/-- Overrides the styles of the names that an entry lists. -/
def addTo (styles : StyleMap) (e : Entry) : StyleMap :=
  e.names.foldl (fun styles name => styles.insert name e.style) styles

end Entry

/-- The style of the last entry that lists a name. -/
def lastStyle? (entries : List Entry) (name : String) : Option IndentStyle :=
  (entries.reverse.find? fun e => e.names.contains name).map Entry.style

theorem getElem?_foldl_insert (styles : StyleMap) (names : List String) (style : IndentStyle)
    (name : String) :
    (names.foldl (fun styles name => styles.insert name style) styles)[name]?
      = if names.contains name then some style else styles[name]? := by
  induction names generalizing styles with
  | nil => rfl
  | cons first names ih =>
    rw [List.foldl_cons, ih, Std.TreeMap.getElem?_insert, List.contains_cons]
    by_cases hfirst : first = name
    · subst hfirst
      simp
    · have hother : compare first name ≠ .eq := fun heq =>
        hfirst (Std.LawfulEqCmp.eq_of_compare heq)
      simp [hother, Ne.symm hfirst]

/-- Entries that are added one after the other leave each name the style of the last that lists
it. -/
theorem getElem?_foldl_addTo (styles : StyleMap) (entries : List Entry) (name : String) :
    (entries.foldl Entry.addTo styles)[name]?
      = (lastStyle? entries name).or styles[name]? := by
  induction entries generalizing styles with
  | nil => rfl
  | cons e entries ih =>
    rw [List.foldl_cons, ih, Entry.addTo, getElem?_foldl_insert, lastStyle?, lastStyle?,
      List.reverse_cons, List.find?_append, List.find?_singleton]
    cases entries.reverse.find? fun e => e.names.contains name with
    | some last => rfl
    | none => cases e.names.contains name <;> simp

/-! ## 2. What is loaded -/

variable {f value : Form Label} {fs items : List (Form Label)} {entries : List Entry}
  {styles styles' : StyleMap}

/-- A sequence without its annotations. -/
theorem eq_seq_of_bare {b : Bracket} {gs : List (Form Unit)} (h : f.bare = .seq () b gs) :
    ∃ l items, f = .seq l b items ∧ items.map Form.bare = gs := by
  cases f with
  | seq l b' items =>
    obtain ⟨rfl, rfl⟩ : b' = b ∧ items.map Form.bare = gs := by simpa using h
    exact ⟨l, items, rfl, rfl⟩
  | _ => simp at h

theorem stringText_eq_ok {name : String} : stringText f = .ok name ↔ f.bare = nameForm name := by
  constructor
  · intro h
    unfold stringText at h
    split at h
    · next text htext =>
      obtain ⟨l, rfl⟩ := Form.eq_string htext
      rw [← Except.ok.inj h]
      rfl
    · simp [unexpected] at h
  · intro h
    cases f with
    | atom l x =>
      obtain rfl : x = .string name := by simpa [nameForm] using h
      rfl
    | _ => simp [nameForm] at h

theorem mapM_stringText_eq_ok {names : List String} :
    fs.mapM stringText = .ok names ↔ fs.map Form.bare = names.map nameForm := by
  rw [mapM_eq_ok_iff, ← List.forall₂_eq_eq_eq, List.forall₂_map_left_iff,
    List.forall₂_map_right_iff]
  simp only [stringText_eq_ok]

theorem listOrVector?_eq_some_iff :
    f.shape.listOrVector? = some items ↔
      ∃ l b, f = .seq l b items ∧ (b = .list ∨ b = .vector) := by
  cases f with
  | seq l b items' => cases b <;> simp [Form.shape, Shape.listOrVector?, Shape.list?, Shape.vector?]
  | _ => simp [Form.shape, Shape.listOrVector?, Shape.list?, Shape.vector?]

/-- What lists names is a group. -/
theorem names_eq_ok {listed : List String} :
    names f = .ok listed ↔ ∃ g : Group, f.bare = g.form ∧ g.names = listed := by
  constructor
  · intro h
    unfold names at h
    split at h
    · next items hitems =>
      have hnames := mapM_stringText_eq_ok.mp h
      obtain ⟨l, b, rfl, rfl | rfl⟩ := listOrVector?_eq_some_iff.mp hitems
      · exact ⟨.list listed, by rw [Form.bare_seq, hnames, Group.form], rfl⟩
      · exact ⟨.vector listed, by rw [Form.bare_seq, hnames, Group.form], rfl⟩
    · cases hname : stringText f with
      | error e =>
        rw [hname] at h
        simp [bind, Except.bind] at h
      | ok name =>
        rw [hname] at h
        exact ⟨.single name, stringText_eq_ok.mp hname, Except.ok.inj h⟩
  · rintro ⟨g, hf, rfl⟩
    cases g with
    | single name =>
      have hname := stringText_eq_ok.mpr hf
      cases f with
      | atom l x =>
        unfold names
        simp only [hname]
        rfl
      | _ => simp [Group.form, nameForm] at hf
    | list listed =>
      obtain ⟨l, items, rfl, hitems⟩ := eq_seq_of_bare hf
      exact mapM_stringText_eq_ok.mpr hitems
    | vector listed =>
      obtain ⟨l, items, rfl, hitems⟩ := eq_seq_of_bare hf
      exact mapM_stringText_eq_ok.mpr hitems

theorem ofKeyword?_eq_some_iff {text : String} {style : IndentStyle} :
    IndentStyle.ofKeyword? text = some style ↔ text = style.keyword := by
  constructor
  · intro h
    have hkeyword := List.find?_some h
    exact (eq_of_beq hkeyword).symm
  · rintro rfl
    cases style <;> decide

theorem style_eq_ok {s : IndentStyle} :
    style f = .ok s ↔ f.bare = .atom () (.keyword s.keyword) := by
  constructor
  · intro h
    unfold style at h
    split at h
    · simp [unexpected] at h
    · next text htext =>
      obtain ⟨l, rfl⟩ := Form.eq_keyword htext
      split at h
      · next s' hs =>
        obtain rfl := Except.ok.inj h
        rw [Form.bare_atom, ofKeyword?_eq_some_iff.mp hs]
      · simp at h
  · intro h
    cases f with
    | atom l x =>
      obtain rfl : x = .keyword s.keyword := by simpa using h
      have hs := @ofKeyword?_eq_some_iff s.keyword s
      unfold style
      simp only [Form.shape, Shape.keyword?, hs.mpr rfl]
    | _ => simp at h

/-! ### Pairs of names and styles -/

theorem addPairs_cons {group value : Form Label} {rest : List (Form Label)} {listed : List String}
    {s : IndentStyle} (hlisted : names group = .ok listed) (hs : style value = .ok s) :
    addPairs styles (group :: value :: rest)
      = addPairs (listed.foldl (fun styles name => styles.insert name s) styles) rest := by
  rw [addPairs, hlisted, hs]
  rfl

/-- Entries in front of other pairs are added first. -/
theorem addPairs_append {later : List (Form Label)}
    (h : fs.map Form.bare = entries.flatMap Entry.forms) :
    addPairs styles (fs ++ later) = addPairs (entries.foldl Entry.addTo styles) later := by
  induction entries generalizing fs styles with
  | nil =>
    obtain rfl : fs = [] := by simpa using h
    rfl
  | cons e entries ih =>
    obtain ⟨group, fs, rfl, hgroup, h⟩ := List.map_eq_cons_iff.mp h
    obtain ⟨value, fs, rfl, hvalue, hrest⟩ := List.map_eq_cons_iff.mp h
    have hlisted : names group = .ok e.names := names_eq_ok.mpr ⟨e.group, hgroup, rfl⟩
    have hstyle := style_eq_ok.mpr hvalue
    rw [List.cons_append, List.cons_append, addPairs_cons hlisted hstyle, ih hrest]
    rfl

/-- Pairs that can be added are entries. -/
theorem entries_of_addPairs (h : addPairs styles fs = .ok styles') (heven : fs.length % 2 = 0) :
    ∃ entries : List Entry, fs.map Form.bare = entries.flatMap Entry.forms := by
  induction styles, fs using addPairs.induct with
  | case1 styles group value rest ih =>
    rw [addPairs] at h
    cases hlisted : names group with
    | error e => simp [hlisted, bind, Except.bind] at h
    | ok listed =>
      cases hs : style value with
      | error e => simp [hlisted, hs, bind, Except.bind] at h
      | ok s =>
        simp only [hlisted, hs, bind, Except.bind] at h
        have hrest : rest.length % 2 = 0 := by
          rw [List.length_cons, List.length_cons] at heven
          omega
        obtain ⟨entries, hentries⟩ := ih listed s h hrest
        obtain ⟨g, hg, -⟩ := names_eq_ok.mp hlisted
        refine ⟨⟨g, s⟩ :: entries, ?_⟩
        rw [List.map_cons, List.map_cons, hg, style_eq_ok.mp hs, hentries]
        rfl
  | case2 fs styles hshort =>
    match fs with
    | [] => exact ⟨[], rfl⟩
    | [f] => simp at heven
    | group :: value :: rest => exact absurd rfl (hshort group value rest)

/-- Entries are pairs. -/
theorem even_length_entries {gs : List (Form Unit)} (h : gs = entries.flatMap Entry.forms) :
    gs.length % 2 = 0 := by
  rw [h, List.length_flatMap]
  simp [Entry.forms]

theorem overrides_seq {l : Label} {b : Bracket} (hb : b = .list ∨ b = .vector) :
    overrides (.seq l b items)
      = if items.length % 2 = 1 then .error .oddOverrides else addPairs ∅ items := by
  have hlist : (Form.seq l b items).shape.listOrVector? = some items :=
    listOrVector?_eq_some_iff.mpr ⟨l, b, rfl, hb⟩
  unfold overrides
  simp only [hlist]

/-- What is loaded from a list or vector of entries is what they add one after the other. -/
theorem overrides_eq_ok :
    overrides value = .ok styles ↔
      ∃ (b : Bracket) (entries : List Entry), (b = .list ∨ b = .vector) ∧
        value.bare = .seq () b (entries.flatMap Entry.forms) ∧
        styles = entries.foldl Entry.addTo ∅ := by
  constructor
  · intro h
    cases hitems : value.shape.listOrVector? with
    | none =>
      unfold overrides at h
      simp [hitems, unexpected] at h
    | some items =>
      obtain ⟨l, b, rfl, hb⟩ := listOrVector?_eq_some_iff.mp hitems
      rw [overrides_seq hb] at h
      split at h
      · simp at h
      · next heven =>
        obtain ⟨entries, hentries⟩ := entries_of_addPairs h (by omega)
        have hadd := @addPairs_append items entries ∅ [] hentries
        rw [List.append_nil, h] at hadd
        exact ⟨b, entries, hb, by rw [Form.bare_seq, hentries], Except.ok.inj hadd⟩
  · rintro ⟨b, entries, hb, hvalue, rfl⟩
    obtain ⟨l, items, rfl, hitems⟩ := eq_seq_of_bare hvalue
    have heven : items.length % 2 ≠ 1 := by
      have hlength := even_length_entries hitems
      rw [List.length_map] at hlength
      omega
    have hadd := @addPairs_append items entries ∅ [] hitems
    rw [List.append_nil] at hadd
    rw [overrides_seq hb, if_neg heven, hadd]
    rfl

/-! ### Settings files -/

/-- Keys and values in the order in which they are written. -/
def pairItems (pairs : List (Form Unit × Form Unit)) : List (Form Unit) :=
  pairs.flatMap fun p => [p.1, p.2]

theorem length_pairItems (pairs : List (Form Unit × Form Unit)) :
    (pairItems pairs).length = 2 * pairs.length := by
  simp [pairItems, List.length_flatMap]
  omega

/-- What stands around the value of the overrides: other keys with their values, and what comes
behind. -/
structure Surroundings where
  ns : Option String
  before : List (Form Unit × Form Unit)
  after : List (Form Unit)
  first : ∀ p ∈ before, p.1 ≠ overridesKey

/-- The settings file in which `value` is the value of the overrides. -/
def Surroundings.file (s : Surroundings) (value : Form Unit) : List (Form Unit) :=
  [.seq () (.map s.ns) (pairItems s.before ++ overridesKey :: value :: s.after)]

theorem findOverrides?_of_bare {before : List (Form Unit × Form Unit)} {found : Form Unit}
    {after : List (Form Unit)}
    (h : fs.map Form.bare = pairItems before ++ overridesKey :: found :: after)
    (hfirst : ∀ p ∈ before, p.1 ≠ overridesKey) :
    ∃ value ∈ fs, value.bare = found ∧ findOverrides? fs = some value := by
  induction before generalizing fs with
  | nil =>
    obtain ⟨key, fs, rfl, hkey, h⟩ := List.map_eq_cons_iff.mp h
    obtain ⟨value, fs, rfl, hvalue, -⟩ := List.map_eq_cons_iff.mp h
    have hkeyword : key.shape.keyword? = some ":indent-overrides" := by
      rw [← Form.keyword_bare, hkey]
      rfl
    exact ⟨value, by simp, hvalue, by rw [findOverrides?, if_pos hkeyword]⟩
  | cons p before ih =>
    obtain ⟨key, fs, rfl, hkey, h⟩ := List.map_eq_cons_iff.mp h
    obtain ⟨value, fs, rfl, hvalue, h⟩ := List.map_eq_cons_iff.mp h
    rw [List.forall_mem_cons] at hfirst
    have hkeyword : key.shape.keyword? ≠ some ":indent-overrides" := fun hfound => by
      obtain ⟨l, rfl⟩ := Form.eq_keyword hfound
      exact hfirst.1 hkey.symm
    obtain ⟨found', hmem, hbare, hfind⟩ := ih h hfirst.2
    exact ⟨found', by simp [hmem], hbare, by rw [findOverrides?, if_neg hkeyword, hfind]⟩

variable {source : String} {d : Reader.Document}

theorem load_of_read (hread : Reader.read {} source = .ok d) : load source = ofForms d.roots := by
  rw [load, hread]

theorem ofForms_map (l : Label) (ns : Option String) (items : List (Form Label)) :
    ofForms [.seq l (.map ns) items]
      = if items.length % 2 = 1 then .error (.oddMap l.pos)
        else match findOverrides? items with
          | some value => overrides value
          | none => .ok ∅ := rfl

/-- A settings file that is one map. -/
theorem eq_map_of_bare {ns : Option String} {gs : List (Form Unit)}
    (h : fs.map Form.bare = [.seq () (.map ns) gs]) :
    ∃ l items, fs = [.seq l (.map ns) items] ∧ items.map Form.bare = gs := by
  obtain ⟨f, rfl, hf⟩ := List.map_eq_singleton_iff.mp h
  obtain ⟨l, items, rfl, hitems⟩ := eq_seq_of_bare hf
  exact ⟨l, items, rfl, hitems⟩

/-- The value of the overrides decides what a settings file is loaded as, if its keys and values are
even in number. -/
theorem load_file {s : Surroundings} {found : Form Unit}
    (hread : Reader.read {} source = .ok d) (hroots : d.roots.map Form.bare = s.file found)
    (heven : s.after.length % 2 = 0) :
    ∃ value ∈ Form.nodesAll d.roots, value.bare = found ∧ load source = overrides value := by
  obtain ⟨l, items, hd, hitems⟩ := eq_map_of_bare hroots
  obtain ⟨value, hmem, hbare, hfind⟩ := findOverrides?_of_bare hitems s.first
  have hlength : items.length % 2 ≠ 1 := by
    have hlength := congrArg List.length hitems
    simp only [List.length_map, List.length_append, List.length_cons, length_pairItems] at hlength
    omega
  refine ⟨value, ?_, hbare, ?_⟩
  · rw [hd]
    exact Form.mem_nodesAll List.mem_cons_self (Form.mem_nodes_of_mem hmem value.self_mem_nodes)
  · rw [load_of_read hread, hd, ofForms_map, if_neg hlength, hfind]

theorem pairItems_append (pairs later : List (Form Unit × Form Unit)) (p : Form Unit × Form Unit) :
    pairItems (pairs ++ p :: later) = pairItems pairs ++ p.1 :: p.2 :: pairItems later := by
  simp [pairItems]

/-- Pairs of forms that belong to no neighbour may stand in a map. -/
theorem encloses_pairItems {pairs : List (Form Unit × Form Unit)} {ns : Option String}
    (hpairs : ∀ p ∈ pairs, p.1.isPaired = true ∧ p.2.isPaired = true)
    (hns : ∀ name ∈ ns, Stands .keyword name.toList) (inside : Bool) :
    (Bracket.map ns).Encloses inside (pairItems pairs) := by
  have hall : ∀ f ∈ pairItems pairs, f.isPaired = true := by
    intro f hf
    obtain ⟨p, hp, hf⟩ := List.mem_flatMap.mp hf
    rcases List.mem_pair.mp hf with rfl | rfl
    · exact (hpairs p hp).1
    · exact (hpairs p hp).2
  have hcount := List.countP_eq_length.mpr hall
  rw [length_pairItems] at hcount
  exact ⟨by omega, hns⟩

/-- A settings file means its entries. Whatever its layout, and whatever other keys it has in front
of the overrides and behind them, it is loaded, and every name has the style of the last entry that
lists it. The other keys and values may be any forms with which the map pairs up, such as forms that
belong to no neighbour (`encloses_pairItems`). -/
theorem load_entries {ns : Option String} {b : Bracket}
    {before after : List (Form Unit × Form Unit)} {entries : List Entry}
    (hsource : Reader.Writes false [.seq () (.map ns) (pairItems (before ++
      (overridesKey, .seq () b (entries.flatMap Entry.forms)) :: after))] source.toList [])
    (hb : b = .list ∨ b = .vector) (hkeys : ∀ p ∈ before, p.1 ≠ overridesKey) :
    ∃ styles, load source = .ok styles ∧
      ∀ name : String, styles[name]? = lastStyle? entries name := by
  obtain ⟨d, hread, hroots⟩ := Reader.read_of_writes hsource
  have hafter : (pairItems after).length % 2 = 0 := by
    rw [length_pairItems]
    omega
  rw [pairItems_append] at hroots
  obtain ⟨value, -, hvalue, hload⟩ :=
    @load_file source d ⟨ns, before, pairItems after, hkeys⟩ _ hread hroots hafter
  have hstyles := overrides_eq_ok.mpr ⟨b, entries, hb, hvalue, rfl⟩
  refine ⟨entries.foldl Entry.addTo ∅, hload.trans hstyles, fun name => ?_⟩
  rw [getElem?_foldl_addTo]
  simp

/-- Two entries with a comment, a comma and a line break among them, and no blanks where none are
needed. Both list the name `x`. -/
theorem load_entries_twice :
    ∃ styles, load "\x7b:width 80,:indent-overrides[\"x\":let;c\n(\"y\"\"x\"):for]\x7d"
        = .ok styles ∧
      (∀ name : String, styles[name]?
        = lastStyle? [⟨.single "x", .letStyle⟩, ⟨.list ["y", "x"], .forStyle⟩] name) ∧
      styles["x"]? = some .forStyle := by
  have hsource : Reader.Writes false [.seq () (.map none) (pairItems
      ([(.atom () (.keyword ":width"), .atom () (.number "80"))] ++ (overridesKey, .seq () .vector
        ([⟨.single "x", .letStyle⟩, ⟨.list ["y", "x"], .forStyle⟩].flatMap Entry.forms)) :: []))]
      "\x7b:width 80,:indent-overrides[\"x\":let;c\n(\"y\"\"x\"):for]\x7d".toList [] := by
    refine .seq (encloses_pairItems (by decide) (by simp) false) ?_ .nil
    refine .keyword rfl (List.all_eq_true.mp rfl) (endsRun_cons rfl) (.blank rfl ?_)
    refine @Reader.Writes.other _ _ (.atom .start (.number "80"))
      [Token.ofSpelling (.number, "80")] "80".toList _ _ (.token rfl) (.atom (.number rfl)) rfl ?_
    refine .blank rfl (.keyword rfl (List.all_eq_true.mp rfl) (endsRun_cons rfl) ?_)
    refine .seq trivial (.string (by simp) ?_) .nil
    refine .keyword rfl (List.all_eq_true.mp rfl) (endsRun_cons rfl) ?_
    refine @Reader.Writes.comment _ _ [';'] ['c'] _ _ (by decide) (by simp) (endsLine_newline _) ?_
    refine .blank rfl (.seq trivial (.string (by simp) (.string (by simp) .nil)) ?_)
    exact .keyword rfl (List.all_eq_true.mp rfl) (endsRun_cons rfl) .nil
  obtain ⟨styles, hload, hstyles⟩ := load_entries hsource (.inr rfl) (by simp [overridesKey])
  exact ⟨styles, hload, hstyles, (hstyles "x").trans rfl⟩

/-! ## 3. Discarded forms -/

/-- A place in a settings file where a sequence stands, with what stands around it. -/
inductive Place
  /-- The map itself. -/
  | map (ns : Option String)
  /-- The value of the overrides. -/
  | overrides (s : Surroundings) (b : Bracket)
  /-- The group of names behind the pairs `earlier` of the value of the overrides. -/
  | group (s : Surroundings) (b : Bracket) (earlier : List (Form Unit × Form Unit))
      (b' : Bracket) (later : List (Form Unit))

namespace Place

/-- The settings file in which the sequence at a place has these items. -/
def file : Place → (items : List (Form Unit)) → List (Form Unit)
  | map ns, items => [.seq () (.map ns) items]
  | overrides s b, items => s.file (.seq () b items)
  | group s b earlier b' later, items =>
    s.file (.seq () b (pairItems earlier ++ .seq () b' items :: later))

/-- How a settings file is refused for the discarded form `x` at a place. -/
def Refuses (roots : List (Form Label)) (x : Form Unit) (e : LoadError) : Place → Prop
  | map _ => ∃ root ∈ roots, e = .oddMap root.note.pos
  | overrides _ _ => e = .oddOverrides
  | group _ _ _ _ _ =>
    ∃ f ∈ Form.nodesAll roots, f.bare = x ∧ e = .unexpectedNode "ReaderDiscardNode" f.note.pos

end Place

variable {source' : String} {d' : Reader.Document} {before after gs : List (Form Unit)}

/-- A map in which the keys and values are odd in number is refused. -/
theorem load_oddMap {ns : Option String} (hread : Reader.read {} source = .ok d)
    (hroots : d.roots.map Form.bare = [.seq () (.map ns) gs]) (hodd : gs.length % 2 = 1) :
    ∃ root ∈ d.roots, load source = .error (.oddMap root.note.pos) := by
  obtain ⟨l, items, hd, rfl⟩ := eq_map_of_bare hroots
  rw [List.length_map] at hodd
  refine ⟨.seq l (.map ns) items, by simp [hd], ?_⟩
  rw [load_of_read hread, hd, ofForms_map, if_pos hodd]
  rfl

/-- What is loaded has keys and values that are even in number. -/
theorem even_of_load {ns : Option String} (hread : Reader.read {} source = .ok d)
    (hroots : d.roots.map Form.bare = [.seq () (.map ns) gs]) (hload : load source = .ok styles) :
    gs.length % 2 = 0 := by
  by_contra hodd
  obtain ⟨root, -, herror⟩ := load_oddMap hread hroots (by omega)
  rw [hload] at herror
  exact absurd herror (by simp)

/-- What is loaded has entries for overrides. The same file with other items there is loaded if
these can be added in pairs. -/
theorem load_items {s : Surroundings} {b : Bracket} {gs' : List (Form Unit)}
    (hread : Reader.read {} source = .ok d)
    (hroots : d.roots.map Form.bare = s.file (.seq () b gs)) (hload : load source = .ok styles)
    (hread' : Reader.read {} source' = .ok d')
    (hroots' : d'.roots.map Form.bare = s.file (.seq () b gs')) :
    (∃ entries : List Entry, gs = entries.flatMap Entry.forms) ∧
      ∃ l items, .seq l b items ∈ Form.nodesAll d'.roots ∧ items.map Form.bare = gs' ∧
        load source'
          = if gs'.length % 2 = 1 then .error .oddOverrides else addPairs ∅ items := by
  have heven := even_of_load hread hroots hload
  simp only [List.length_append, List.length_cons, length_pairItems] at heven
  have hafter : s.after.length % 2 = 0 := by omega
  obtain ⟨value, -, hvalue, hoverrides⟩ := load_file hread hroots hafter
  obtain ⟨b', entries, hb, hentries, -⟩ := overrides_eq_ok.mp (hoverrides.symm.trans hload)
  obtain ⟨rfl, rfl⟩ : b = b' ∧ gs = entries.flatMap Entry.forms := by
    simpa using hvalue.symm.trans hentries
  obtain ⟨value', hmem, hvalue', hload'⟩ := load_file hread' hroots' hafter
  obtain ⟨l, items, rfl, rfl⟩ := eq_seq_of_bare hvalue'
  exact ⟨⟨entries, rfl⟩, l, items, hmem, rfl, by rw [hload', overrides_seq hb, List.length_map]⟩

/-- One more item makes an even number odd. -/
theorem odd_length_insert (h : (before ++ after).length % 2 = 0) (x : Form Unit) :
    (before ++ x :: after).length % 2 = 1 := by
  rw [List.length_append] at h ⊢
  rw [List.length_cons]
  omega

/-- A group of names behind some pairs stands behind some entries. -/
theorem entries_of_append {earlier : List (Form Unit × Form Unit)} {f : Form Unit}
    {later : List (Form Unit)} {entries : List Entry}
    (h : pairItems earlier ++ f :: later = entries.flatMap Entry.forms) :
    ∃ (front : List Entry) (e : Entry), pairItems earlier = front.flatMap Entry.forms ∧
      f = e.group.form ∧ later ≠ [] := by
  induction earlier generalizing entries with
  | nil =>
    cases entries with
    | nil => simp [pairItems] at h
    | cons e entries =>
      obtain ⟨rfl, hlater⟩ := List.cons.inj h
      exact ⟨[], e, rfl, rfl, by simp [hlater]⟩
  | cons p earlier ih =>
    cases entries with
    | nil => simp [pairItems] at h
    | cons e entries =>
      obtain ⟨hgroup, h⟩ := List.cons.inj h
      obtain ⟨hstyle, h⟩ := List.cons.inj h
      obtain ⟨front, e', hfront, hf, hlater⟩ := ih h
      refine ⟨e :: front, e', ?_, hf, hlater⟩
      rw [pairItems, List.flatMap_cons, ← pairItems, hfront, hgroup, hstyle]
      rfl

/-- A group that is written as a sequence is a list or vector of names. -/
theorem Group.form_eq_seq {g : Group} {b : Bracket} (h : g.form = .seq () b gs) :
    (b = .list ∨ b = .vector) ∧ ∃ listed : List String, gs = listed.map nameForm := by
  cases g with
  | single name => simp [form, nameForm] at h
  | list listed =>
    obtain ⟨rfl, rfl⟩ : Bracket.list = b ∧ listed.map nameForm = gs := by simpa [form] using h
    exact ⟨.inl rfl, listed, rfl⟩
  | vector listed =>
    obtain ⟨rfl, rfl⟩ : Bracket.vector = b ∧ listed.map nameForm = gs := by simpa [form] using h
    exact ⟨.inr rfl, listed, rfl⟩

/-- A discarded form behind some names is not one of them. -/
theorem names_of_discarded {g : Form Label} {b : Bracket} {listed : List String}
    {dropped : Form Unit} (hb : b = .list ∨ b = .vector)
    (hg : g.bare
      = .seq () b (listed.map nameForm ++ .prefixed () .readerDiscard dropped :: after)) :
    ∃ f ∈ g.parts, f.bare = .prefixed () .readerDiscard dropped ∧
      names g = .error (.unexpectedNode "ReaderDiscardNode" f.note.pos) := by
  obtain ⟨l, items, rfl, hitems⟩ := eq_seq_of_bare hg
  obtain ⟨front, items', rfl, hfront, hitems⟩ := List.map_eq_append_iff.mp hitems
  obtain ⟨f, later, rfl, hf, -⟩ := List.map_eq_cons_iff.mp hitems
  refine ⟨f, by simp [Form.parts, Form.shape, Shape.parts], hf, ?_⟩
  have hlist : (Form.seq l b (front ++ f :: later)).shape.listOrVector?
      = some (front ++ f :: later) := listOrVector?_eq_some_iff.mpr ⟨l, b, rfl, hb⟩
  have htext : stringText f = .error (.unexpectedNode "ReaderDiscardNode" f.note.pos) := by
    cases f with
    | prefixed k s body =>
      obtain rfl : s = .readerDiscard := by simp at hf; exact hf.1
      rfl
    | _ => simp at hf
  unfold names
  simp only [hlist]
  rw [List.mapM_append, mapM_stringText_eq_ok.mpr hfront, List.mapM_cons, htext]
  rfl

/-- Names that are refused are not added. -/
theorem addPairs_of_error {group : Form Label} {later : List (Form Label)} {e : LoadError}
    (h : names group = .error e) (hlater : later ≠ []) :
    addPairs styles (group :: later) = .error e := by
  obtain ⟨value, rest, rfl⟩ := List.exists_cons_of_ne_nil hlater
  rw [addPairs, h]
  rfl

/-- A settings file that is loaded is refused once a discarded form is put in front of one of the
items, or behind the last, of its map, of the value of its overrides, or of a group of names: the
map or the overrides no longer pair up, or what is discarded is no name. -/
theorem load_discarded {place : Place} {dropped : Form Unit}
    (hread : Reader.read {} source = .ok d)
    (hroots : d.roots.map Form.bare = place.file (before ++ after))
    (hload : load source = .ok styles) (hread' : Reader.read {} source' = .ok d')
    (hroots' : d'.roots.map Form.bare
      = place.file (before ++ .prefixed () .readerDiscard dropped :: after)) :
    ∃ e, load source' = .error e ∧
      place.Refuses d'.roots (.prefixed () .readerDiscard dropped) e := by
  cases place with
  | map ns =>
    have hodd := odd_length_insert (even_of_load hread hroots hload)
    obtain ⟨root, hroot, herror⟩ := load_oddMap hread' hroots' (hodd _)
    exact ⟨_, herror, root, hroot, rfl⟩
  | overrides s b =>
    obtain ⟨⟨entries, hentries⟩, l, items, -, -, hload'⟩ :=
      load_items hread hroots hload hread' hroots'
    have hodd := odd_length_insert (even_length_entries hentries)
    exact ⟨.oddOverrides, by rw [hload', if_pos (hodd _)], rfl⟩
  | group s b earlier b' later =>
    obtain ⟨⟨entries, hentries⟩, l, items, hmem, hitems, hload'⟩ :=
      load_items hread hroots hload hread' hroots'
    have heven := even_length_entries hentries
    rw [List.length_append, List.length_cons] at hload' heven
    rw [if_neg (by omega)] at hload'
    -- The pairs in front are entries as before, so the group is reached, and all in front of what
    -- is discarded are names.
    obtain ⟨front, e, hfront, hgroup, hlater⟩ := entries_of_append hentries
    obtain ⟨hb', listed, hlisted⟩ := e.group.form_eq_seq hgroup.symm
    obtain ⟨names, names', rfl, rfl, rfl⟩ := List.map_eq_append_iff.mp hlisted.symm
    obtain ⟨pairs, rest, rfl, hpairs, hrest⟩ := List.map_eq_append_iff.mp hitems
    obtain ⟨g, rest, rfl, hg, hrest⟩ := List.map_eq_cons_iff.mp hrest
    obtain ⟨f, hf, hdropped, herror⟩ := names_of_discarded hb' hg
    have hne : rest ≠ [] := by
      rintro rfl
      exact hlater hrest.symm
    have hitem : g ∈ (Form.seq l b (pairs ++ g :: rest)).parts := by
      simp [Form.parts, Form.shape, Shape.parts]
    refine ⟨_, ?_, f, Form.mem_nodesAll_of_part (Form.mem_nodesAll_of_part hmem hitem) hf,
      hdropped, rfl⟩
    rw [hload', addPairs_append (hpairs.trans hfront), addPairs_of_error herror hne]

/-- A discarded form in front of the only name of a group. -/
theorem load_discarded_name :
    ∃ d d' styles, Reader.read {} "\x7b:indent-overrides [(\"a\") :let]\x7d" = .ok d ∧
      load "\x7b:indent-overrides [(\"a\") :let]\x7d" = .ok styles ∧
      Reader.read {} "\x7b:indent-overrides [(#_x \"a\") :let]\x7d" = .ok d' ∧
      ∃ e, load "\x7b:indent-overrides [(#_x \"a\") :let]\x7d" = .error e ∧
        (Place.group ⟨none, [], [], by simp⟩ .vector [] .list [.atom () (.keyword ":let")]).Refuses
          d'.roots (.prefixed () .readerDiscard (.atom () (.symbol "x"))) e := by
  have hread : ∃ d, Reader.read {} "\x7b:indent-overrides [(\"a\") :let]\x7d" = .ok d ∧
      d.roots.map Form.bare = Place.file (.group ⟨none, [], [], by simp⟩ .vector [] .list
        [.atom () (.keyword ":let")]) ([] ++ [nameForm "a"]) := ⟨_, rfl, rfl⟩
  have hread' : ∃ d, Reader.read {} "\x7b:indent-overrides [(#_x \"a\") :let]\x7d" = .ok d ∧
      d.roots.map Form.bare = Place.file (.group ⟨none, [], [], by simp⟩ .vector [] .list
        [.atom () (.keyword ":let")])
        ([] ++ .prefixed () .readerDiscard (.atom () (.symbol "x")) :: [nameForm "a"]) :=
    ⟨_, rfl, rfl⟩
  obtain ⟨d, hread, hroots⟩ := hread
  obtain ⟨d', hread', hroots'⟩ := hread'
  have hload : ∃ styles, load "\x7b:indent-overrides [(\"a\") :let]\x7d" = .ok styles := ⟨_, rfl⟩
  obtain ⟨styles, hload⟩ := hload
  exact ⟨d, d', styles, hread, hload, hread', load_discarded hread hroots hload hread' hroots'⟩

/-- In front of the key of the overrides, a discarded form takes the place of the key: the map is no
longer one of pairs. -/
theorem discarded_key :
    (∃ styles, load "\x7b:indent-overrides [\"a\" :let]\x7d" = .ok styles ∧
        styles["a"]? = some .letStyle) ∧
      load "\x7b#_x :indent-overrides [\"a\" :let]\x7d" = .error (.oddMap .start) :=
  ⟨⟨_, rfl, rfl⟩, rfl⟩

end CljFormat.DotConfig
