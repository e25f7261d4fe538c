/-
CljFormat.Proofs.Form.Replace — sources that differ in one place.

Two sources that are the same but for one form are related by what stands in its place in each of
them (`Replaces`). Whatever is noted at the forms besides, the place is found again
(`Replaces.lift`): if one of the sources is noted in some way, then so is the other, with the same
notes around the place.
-/
import CljFormat.Proofs.Tree.Rearrange

namespace CljFormat.Form

variable {α : Type} {s s' f g : Form α} {fs gs : List (Form α)}

/-- The form `g` is the form `f` with `s'` in one place of `s`. -/
inductive Replaces (s s' : Form α) : Form α → Form α → Prop
  | here : Replaces s s' s s'
  | prefixed {f g : Form α} (note : α) (p : Sigil) : Replaces s s' f g →
      Replaces s s' (.prefixed note p f) (.prefixed note p g)
  | seq {f g : Form α} (note : α) (b : Bracket) (before after : List (Form α)) :
      Replaces s s' f g →
      Replaces s s' (.seq note b (before ++ f :: after)) (.seq note b (before ++ g :: after))

/-- The forms `gs` are the forms `fs` with `s'` in one place of `s`. -/
def ReplacesAmong (s s' : Form α) (fs gs : List (Form α)) : Prop :=
  ∃ before f g after, fs = before ++ f :: after ∧ gs = before ++ g :: after ∧ Replaces s s' f g

/-! ## 1. Around the place -/

theorem Replaces.note (hs : s'.note = s.note) (h : Replaces s s' f g) : g.note = f.note := by
  cases h with
  | here => exact hs
  | prefixed note p _ => rfl
  | seq note b before after _ => rfl

theorem Replaces.head (hs : s'.shape.head = s.shape.head) (h : Replaces s s' f g) :
    g.shape.head = f.shape.head := by
  cases h with
  | here => exact hs
  | prefixed note p _ => rfl
  | seq note b before after _ => rfl

theorem Replaces.isNewline (hs : s.isNewline = false) (h : Replaces s s' f g) :
    f.isNewline = false := by
  cases h with
  | here => exact hs
  | prefixed note p _ => rfl
  | seq note b before after _ => rfl

theorem Replaces.symm (h : Replaces s s' f g) : Replaces s' s g f := by
  induction h with
  | here => exact .here
  | prefixed note p _ ih => exact .prefixed note p ih
  | seq note b before after _ ih => exact .seq note b before after ih

theorem ReplacesAmong.symm (h : ReplacesAmong s s' fs gs) : ReplacesAmong s' s gs fs := by
  obtain ⟨before, f, g, after, hfs, hgs, hfg⟩ := h
  exact ⟨before, g, f, after, hgs, hfs, hfg.symm⟩

theorem Replaces.mem_nodes (h : Replaces s s' f g) : s' ∈ g.nodes := by
  induction h with
  | here => exact self_mem_nodes _
  | prefixed note p _ ih => exact mem_nodes_of_body ih
  | seq note b before after _ ih => exact mem_nodes_of_mem (by simp) ih

theorem ReplacesAmong.mem_nodesAll (h : ReplacesAmong s s' fs gs) : s' ∈ nodesAll gs := by
  obtain ⟨before, f, g, after, -, rfl, hfg⟩ := h
  exact mem_nodesAll (List.mem_append_right before List.mem_cons_self) hfg.mem_nodes

/-- Replacing a form by one with more identities around it adds these. -/
theorem Replaces.ids {s s' f g : Form Label} (hs : s.ids.Sublist s'.ids) (h : Replaces s s' f g) :
    f.ids.Sublist g.ids := by
  induction h with
  | here => exact hs
  | prefixed note p _ ih => exact ih.cons_cons _
  | seq note b before after _ ih =>
    rw [ids_seq, ids_seq]
    simp only [List.flatMap_append, List.flatMap_cons]
    exact ((ih.append_right _).append_left _).cons_cons _

/-! ## 2. Notes -/

/-- Of bare forms that differ in one place, the second with some notes is the first with the same
notes around the place. -/
theorem Replaces.lift {s s' f f' : Form Unit} (h : Replaces s s' f f') {g : Form α}
    (hg : g.bare = f') :
    ∃ t' : Form α, t'.bare = s' ∧
      ∀ t : Form α, t.bare = s → ∃ g₀, g₀.bare = f ∧ Replaces t t' g₀ g := by
  induction h generalizing g with
  | here => exact ⟨g, hg, fun t ht => ⟨t, ht, .here⟩⟩
  | prefixed note p _ ih =>
    cases g with
    | prefixed note' p' body =>
      obtain ⟨rfl, hbody⟩ : p' = p ∧ body.bare = _ := by simpa using hg
      obtain ⟨t', ht', hlift⟩ := ih hbody
      refine ⟨t', ht', fun t ht => ?_⟩
      obtain ⟨g₀, rfl, hg₀⟩ := hlift t ht
      exact ⟨.prefixed note' p' g₀, rfl, .prefixed note' p' hg₀⟩
    | _ => simp at hg
  | seq note b before after _ ih =>
    cases g with
    | seq note' b' items =>
      obtain ⟨rfl, hitems⟩ : b' = b ∧ items.map bare = _ := by simpa using hg
      obtain ⟨front, later, rfl, rfl, hlater⟩ := List.map_eq_append_iff.mp hitems
      obtain ⟨k, back, rfl, hk, rfl⟩ := List.map_eq_cons_iff.mp hlater
      obtain ⟨t', ht', hlift⟩ := ih hk
      refine ⟨t', ht', fun t ht => ?_⟩
      obtain ⟨g₀, rfl, hg₀⟩ := hlift t ht
      exact ⟨.seq note' b' (front ++ g₀ :: back), by simp, .seq note' b' front back hg₀⟩
    | _ => simp at hg

theorem ReplacesAmong.lift {s s' : Form Unit} {fs fs' : List (Form Unit)}
    (h : ReplacesAmong s s' fs fs') {gs : List (Form α)} (hgs : gs.map bare = fs') :
    ∃ t' : Form α, t'.bare = s' ∧
      ∀ t : Form α, t.bare = s → ∃ gs₀, gs₀.map bare = fs ∧ ReplacesAmong t t' gs₀ gs := by
  obtain ⟨before, f, f', after, rfl, rfl, hf⟩ := h
  obtain ⟨front, later, rfl, rfl, hlater⟩ := List.map_eq_append_iff.mp hgs
  obtain ⟨k, back, rfl, hk, rfl⟩ := List.map_eq_cons_iff.mp hlater
  obtain ⟨t', ht', hlift⟩ := hf.lift hk
  refine ⟨t', ht', fun t ht => ?_⟩
  obtain ⟨g₀, rfl, hg₀⟩ := hlift t ht
  exact ⟨front ++ g₀ :: back, by simp, front, g₀, k, back, rfl, rfl, hg₀⟩

end CljFormat.Form
