import Dockerfiles.Icecast.Entrypoint
import Dockerfiles.Shell.Script

/-! # Restarts of the Icecast image

The first start of a container replaces the placeholders of `icecast.xml` for
good. A later start draws new passwords, finds no placeholder to put them in and
prints them all the same.
-/

namespace Icecast

open Shell

/-! ## Reading an element -/

/-- The text after the first occurrence of a word. -/
def after (w : Text) : Text → Option Text
  | [] => none
  | c :: cs => if w.isPrefixOf (c :: cs) then some ((c :: cs).drop w.length) else after w cs

/-- The text up to the first occurrence of a word. -/
def upTo (w : Text) : Text → Option Text
  | [] => none
  | c :: cs => if w.isPrefixOf (c :: cs) then some [] else (upTo w cs).map (c :: ·)

/-- The content of the first element of that name with both its tags on one line. -/
def element (tag file : Text) : Option Text :=
  (file.splitOn '\n').findSome? fun l => (after (openTag tag) l).bind (upTo (closeTag tag))

theorem after_eq_none {w t : Text} (h : ¬ w <:+: t) : after w t = none := by
  induction t with
  | nil => rfl
  | cons c cs ih =>
      have hp : ¬ w <+: c :: cs := fun hp => h hp.isInfix
      have hcs : ¬ w <:+: cs := fun hi => h (List.infix_cons hi)
      simp [after, hp, ih hcs]

theorem after_append {d : Char} {x : Text} (w y : Text) (hd : d ∉ x) :
    after (d :: w) (x ++ y) = after (d :: w) y := by
  induction x with
  | nil => rfl
  | cons c cs ih =>
      have hc : d ≠ c := fun h => hd (by simp [h])
      have hcs := ih fun h => hd (List.mem_cons_of_mem c h)
      simp [after, hc, hcs]

theorem after_self (d : Char) (w y : Text) : after (d :: w) (d :: w ++ y) = some y := by
  simp [after]

theorem upTo_append {d : Char} {v : Text} (w y : Text) (hd : d ∉ v) :
    upTo (d :: w) (v ++ (d :: w ++ y)) = some v := by
  induction v with
  | nil => simp [upTo]
  | cons c cs ih =>
      have hc : d ≠ c := fun h => hd (by simp [h])
      have hcs := ih fun h => hd (List.mem_cons_of_mem c h)
      simp only [List.cons_append] at hcs
      simp [upTo, hc, hcs]

theorem element_line {tag v : Text} (indent : Nat) (hv : '<' ∉ v) :
    (after (openTag tag) (elementLine indent tag v)).bind (upTo (closeTag tag)) = some v := by
  have hb : '<' ∉ List.replicate indent ' ' := by simp [List.mem_replicate]
  have hu := upTo_append ('/' :: (tag ++ ['>'])) [] hv
  rw [List.append_nil] at hu
  rw [elementLine, openTag, after_append _ _ hb, after_self]
  exact hu

private theorem after_cons_ne {d e c : Char} (w cs : Text) (he : e ≠ c) :
    after (d :: e :: w) (d :: c :: cs) = after (d :: e :: w) (c :: cs) := by
  rw [after]
  simp [he]

/-- An element of another name is passed over. -/
theorem after_openTag_other {b e : Char} {tag tag' v : Text} (indent : Nat) (he : e ≠ b)
    (hs : e ≠ '/') (ht : '<' ∉ b :: tag) (hv : '<' ∉ v) :
    after (openTag (e :: tag')) (elementLine indent (b :: tag) v) = none := by
  have hb : '<' ∉ List.replicate indent ' ' := by simp [List.mem_replicate]
  have hm : '<' ∉ (b :: tag) ++ ('>' :: v) := by simp_all
  have hl : elementLine indent (b :: tag) v = List.replicate indent ' ' ++
      '<' :: b :: (tag ++ ('>' :: v) ++ '<' :: '/' :: (b :: tag ++ ['>'])) := by
    simp [elementLine, openTag, closeTag]
  have hend : '<' ∉ '/' :: (b :: tag ++ ['>']) := by simp_all
  have hmid := after_append (e :: (tag' ++ ['>'])) ('<' :: '/' :: (b :: tag ++ ['>'])) hm
  have hlast := after_append (e :: (tag' ++ ['>'])) [] hend
  rw [hl, openTag, List.cons_append, after_append _ _ hb, after_cons_ne _ _ he]
  refine hmid.trans ?_
  rw [after_cons_ne _ _ hs]
  simpa [after] using hlast

/-! ## The elements of a filled template -/

private theorem after_of_inert {tag l : Text} (ht : passwordTagEnd <:+: openTag tag) (hl : Inert l) :
    after (openTag tag) l = none :=
  after_eq_none fun h => hl.2.2.2 (ht.trans h)

private theorem findSome_gap {tag : Text} {first count : Nat} {rest : List Text}
    (ht : passwordTagEnd <:+: openTag tag) (hg : ∀ l ∈ gap first count, Inert l) :
    (gap first count ++ rest).findSome? (fun l =>
        (after (openTag tag) l).bind (upTo (closeTag tag))) =
      rest.findSome? fun l => (after (openTag tag) l).bind (upTo (closeTag tag)) := by
  have hnone : (gap first count).findSome? (fun l =>
      (after (openTag tag) l).bind (upTo (closeTag tag))) = none := by
    rw [List.findSome?_eq_none_iff]
    intro l hl
    rw [after_of_inert ht (hg l hl)]
    rfl
  rw [List.findSome?_append, hnone, Option.none_or]

/-- A text that an element can hold. -/
def Content (v : Text) : Prop := '\n' ∉ v ∧ '<' ∉ v

theorem element_fill {source relay admin hostname : Text} (hs : Content source)
    (hr : Content relay) (ha : Content admin) (hh : Content hostname) :
    element sourceTag (fill source relay admin hostname) = some source ∧
      element relayTag (fill source relay admin hostname) = some relay ∧
      element adminTag (fill source relay admin hostname) = some admin := by
  have hg := inert_gaps
  simp only [List.forall_mem_append] at hg
  obtain ⟨h0, h1, h2, h3, h4⟩ := hg
  have tags : passwordTagEnd <:+: openTag sourceTag ∧ passwordTagEnd <:+: openTag relayTag ∧
      passwordTagEnd <:+: openTag adminTag := by decide
  have source_relay : after (openTag relayTag) (sourceLine source) = none :=
    after_openTag_other 8 (by decide) (by decide) (by decide) hs.2
  have source_admin : after (openTag adminTag) (sourceLine source) = none :=
    after_openTag_other 8 (by decide) (by decide) (by decide) hs.2
  have relay_admin : after (openTag adminTag) (relayLine relay) = none :=
    after_openTag_other 8 (by decide) (by decide) (by decide) hr.2
  unfold element
  rw [splitOn_fill hs.1 hr.1 ha.1 hh.1, fillLines]
  refine ⟨?_, ?_, ?_⟩
  · rw [findSome_gap tags.1 h0, List.findSome?_cons, sourceLine, element_line 8 hs.2]
  · rw [findSome_gap tags.2.1 h0, List.findSome?_cons, source_relay, Option.bind_none,
      findSome_gap tags.2.1 h1, List.findSome?_cons, relayLine, element_line 8 hr.2]
  · rw [findSome_gap tags.2.2 h0, List.findSome?_cons, source_admin, Option.bind_none,
      findSome_gap tags.2.2 h1, List.findSome?_cons, relay_admin, Option.bind_none,
      findSome_gap tags.2.2 h2, List.findSome?_cons, adminLine, element_line 8 ha.2]

/-! ## Generated passwords -/

/-- Letters, digits, dots and hyphens. -/
def Clean (v : Text) : Prop := ∀ c ∈ v, c.isAlphanum = true ∨ c = '.' ∨ c = '-'

instance (v : Text) : Decidable (Clean v) :=
  decidable_of_iff (v.all fun c => c.isAlphanum = true ∨ c = '.' ∨ c = '-')
    List.all_iff_forall_prop

/-- A start with no password set: `pwgen` gives letters and digits. -/
structure Start.Generated (x : Start) : Prop where
  source_unset : x.sourcePassword = none
  relay_unset : x.relayPassword = none
  admin_unset : x.adminPassword = none
  source_alnum : ∀ c ∈ x.source, c.isAlphanum = true
  relay_alnum : ∀ c ∈ x.relay, c.isAlphanum = true
  admin_alnum : ∀ c ∈ x.admin, c.isAlphanum = true
  hostname_clean : Clean x.hostname

private theorem Clean.not_mem {v : Text} (h : Clean v) {c : Char} (ha : c.isAlphanum = false)
    (hd : c ≠ '.') (hm : c ≠ '-') : c ∉ v := by
  intro hc
  have hcases := h c hc
  simp [ha, hd, hm] at hcases

theorem Clean.plain {v : Text} (h : Clean v) : Plain v := by
  intro c hc
  refine ⟨?_, ?_, ?_⟩
  all_goals
    rintro rfl
    exact h.not_mem (by decide) (by decide) (by decide) hc

theorem Clean.content {v : Text} (h : Clean v) : Content v :=
  ⟨h.not_mem (by decide) (by decide) (by decide), h.not_mem (by decide) (by decide) (by decide)⟩

theorem Clean.replaceAll {w v t : Text} (hv : Clean v) (ht : Clean t) : Clean (replaceAll w v t) := by
  intro c hc
  rcases mem_replaceAll hc with hm | hm
  · exact hv c hm
  · exact ht c hm

theorem Clean.replaceAll_password {w t : Text} (v : Text) (hw : '_' ∈ w) (ht : Clean t) :
    Shell.replaceAll w v t = t :=
  replaceAll_of_not_infix v fun h =>
    ht.not_mem (by decide) (by decide) (by decide) (h.subset hw)

section Start

variable {x : Start} (hx : x.Generated) (other : Text → Text → Text)

include hx

theorem Start.Generated.clean :
    Clean x.source ∧ Clean x.relay ∧ Clean x.admin ∧ Clean x.hostname :=
  ⟨fun c hc => .inl (hx.source_alnum c hc), fun c hc => .inl (hx.relay_alnum c hc),
    fun c hc => .inl (hx.admin_alnum c hc), hx.hostname_clean⟩

theorem Start.Generated.unaffected : x.Unaffected := by
  obtain ⟨hs, hr, ha, hh⟩ := hx.clean
  refine ⟨⟨hh.plain, hs.plain, hr.plain, ha.plain⟩, ?_, ?_, ?_⟩
  · exact hr.replaceAll_password _ (by decide)
  · rw [hs.replaceAll_password _ (by decide), hs.replaceAll_password _ (by decide)]
  · rw [hh.replaceAll_password _ (by decide), hh.replaceAll_password _ (by decide),
      hh.replaceAll_password _ (by decide)]

/-- A later start finds no placeholder but those that stand in a host name. -/
theorem render_clean {source relay admin hostname : Text} (hs : Clean source) (hr : Clean relay)
    (ha : Clean admin) (hh : Clean hostname) :
    render other x (fill source relay admin hostname) =
      fill (replaceAll hostnameWord x.hostname source) (replaceAll hostnameWord x.hostname relay)
        (replaceAll hostnameWord x.hostname admin)
        (replaceAll hostnameWord x.hostname hostname) := by
  have hc := hx.clean.2.2.2
  have hins : inserted hostnameWord x.hostname = x.hostname :=
    (inserted_of_plain (by decide) hc.plain).2
  have hkeep : ∀ t, Clean t → afterAdmin x (afterRelay x (afterSource x t)) = t := by
    intro t ht
    rw [afterAdmin, afterRelay, afterSource, ht.replaceAll_password _ (by decide),
      ht.replaceAll_password _ (by decide), ht.replaceAll_password _ (by decide)]
  rw [render_fill other hx.unaffected.singleCommands]
  simp only [hins]
  rw [hkeep _ (hc.replaceAll hs), hkeep _ (hc.replaceAll hr), hkeep _ (hc.replaceAll ha),
    hkeep _ (hc.replaceAll hh)]

end Start

/-! ## Sequences of starts -/

/-- What the container's file can be at a start: the template, or one filled
with values of letters, digits, dots and hyphens. -/
def Rendered (file : Text) : Prop :=
  file = icecastXml ∨ ∃ source relay admin hostname, file = fill source relay admin hostname ∧
    Clean source ∧ Clean relay ∧ Clean admin ∧ Clean hostname

theorem rendered_render (other : Text → Text → Text) {x : Start} {file : Text} (hx : x.Generated)
    (h : Rendered file) : Rendered (render other x file) := by
  obtain ⟨hs, hr, ha, hh⟩ := hx.clean
  rcases h with rfl | ⟨source, relay, admin, hostname, rfl, cs, cr, ca, ch⟩
  · exact .inr ⟨_, _, _, _, render_of_unaffected other hx.unaffected, hs, hr, ha, hh⟩
  · exact .inr ⟨_, _, _, _, render_clean hx other cs cr ca ch, hh.replaceAll cs, hh.replaceAll cr,
      hh.replaceAll ca, hh.replaceAll ch⟩

/-- At the `exec` the three elements hold the passwords of the printed lines. -/
def Effective (file : Text) (printed version : List Text) : Prop :=
  ∃ source relay admin, element sourceTag file = some source ∧
    element relayTag file = some relay ∧ element adminTag file = some admin ∧
    printed = output version source relay admin

theorem effective_fill_iff {source relay admin hostname source' relay' admin' : Text}
    (version : List Text) (hs : Clean source) (hr : Clean relay) (ha : Clean admin)
    (hh : Clean hostname) :
    Effective (fill source relay admin hostname) (output version source' relay' admin') version ↔
      source' = source ∧ relay' = relay ∧ admin' = admin := by
  obtain ⟨es, er, ea⟩ := element_fill hs.content hr.content ha.content hh.content
  simp [Effective, es, er, ea, output]

/-- The start is the container's first, or it draws the passwords that the file
already holds, in which it fills in the host name once more. -/
def DrawsSame (file : Text) (x : Start) : Prop :=
  file = icecastXml ∨
    ((element sourceTag file).map (replaceAll hostnameWord x.hostname) = some x.source ∧
      (element relayTag file).map (replaceAll hostnameWord x.hostname) = some x.relay ∧
      (element adminTag file).map (replaceAll hostnameWord x.hostname) = some x.admin)

theorem effective_render_iff (other : Text → Text → Text) (version : List Text) {x : Start}
    {file : Text} (hx : x.Generated) (h : Rendered file) :
    Effective (render other x file) (output version x.source x.relay x.admin) version ↔
      DrawsSame file x := by
  obtain ⟨hs, hr, ha, hh⟩ := hx.clean
  by_cases hfirst : file = icecastXml
  · subst hfirst
    rw [render_of_unaffected other hx.unaffected, effective_fill_iff version hs hr ha hh]
    simp [DrawsSame]
  · obtain ⟨source, relay, admin, hostname, rfl, cs, cr, ca, ch⟩ := h.resolve_left hfirst
    obtain ⟨es, er, ea⟩ := element_fill cs.content cr.content ca.content ch.content
    rw [render_clean hx other cs cr ca ch, effective_fill_iff version (hh.replaceAll cs)
      (hh.replaceAll cr) (hh.replaceAll ca) (hh.replaceAll ch)]
    simp [DrawsSame, hfirst, es, er, ea, eq_comm]

/-- Over any sequence of starts of one container that draw their passwords, the
printed passwords are those in the file at each start exactly when each but the
first draws what the file already holds. -/
theorem printed_passwords_effective_iff (other : Text → Text → Text) (version : List Text)
    (xs : List Start) (hx : ∀ x ∈ xs, x.Generated) :
    AtEach (fun file x => render other x file)
        (fun file x => Effective (render other x file)
          (output version x.source x.relay x.admin) version) icecastXml xs ↔
      AtEach (fun file x => render other x file) DrawsSame icecastXml xs := by
  apply atEach_congr (I := Rendered) (.inl rfl)
  · intro file x hm hI
    exact rendered_render other (hx x hm) hI
  · intro file x hm hI
    exact effective_render_iff other version (hx x hm) hI

/-- A start on the host `radio.fm` for which `pwgen` gives the same word three times. -/
def Start.drawing (word : String) : Start where
  hostname := "radio.fm".toList
  sourcePassword := none
  relayPassword := none
  adminPassword := none
  sourcePwgen := word.toList ++ ['\n']
  relayPwgen := word.toList ++ ['\n']
  adminPwgen := word.toList ++ ['\n']

private theorem generated_drawing :
    (Start.drawing "ooShu7").Generated ∧ (Start.drawing "iQu4fa").Generated := by
  refine ⟨⟨rfl, rfl, rfl, ?_, ?_, ?_, by decide⟩, ⟨rfl, rfl, rfl, ?_, ?_, ?_, by decide⟩⟩
  all_goals exact List.all_eq_true.mp (by decide)

private theorem element_drawing (other : Text → Text → Text) :
    element sourceTag (render other (.drawing "ooShu7") icecastXml) = some "ooShu7".toList ∧
      element relayTag (render other (.drawing "ooShu7") icecastXml) = some "ooShu7".toList ∧
      element adminTag (render other (.drawing "ooShu7") icecastXml) = some "ooShu7".toList := by
  have hx := generated_drawing.1
  obtain ⟨hs, hr, ha, hh⟩ := hx.clean
  rw [render_of_unaffected other hx.unaffected]
  exact element_fill hs.content hr.content ha.content hh.content

/-- Two starts for which `pwgen` happens to give the same. -/
theorem printed_passwords_effective_same_draw :
    (∀ x ∈ [Start.drawing "ooShu7", .drawing "ooShu7"], x.Generated) ∧
      AtEach (fun file x => render (fun _ file => file) x file)
        (fun file x => Effective (render (fun _ file => file) x file)
          (output [] x.source x.relay x.admin) []) icecastXml
        [.drawing "ooShu7", .drawing "ooShu7"] := by
  have hx : ∀ x ∈ [Start.drawing "ooShu7", .drawing "ooShu7"], x.Generated := by
    simp [generated_drawing.1]
  obtain ⟨es, er, ea⟩ := element_drawing fun _ file => file
  refine ⟨hx, (printed_passwords_effective_iff _ _ _ hx).mpr ⟨.inl rfl, .inr ?_, trivial⟩⟩
  rw [es, er, ea]
  decide

/-- The second start prints what it drew, the file keeps the first passwords. -/
theorem printed_passwords_stale_after_restart :
    ¬ AtEach (fun file x => render (fun _ file => file) x file)
      (fun file x => Effective (render (fun _ file => file) x file)
        (output [] x.source x.relay x.admin) []) icecastXml
      [.drawing "ooShu7", .drawing "iQu4fa"] := by
  intro h
  obtain ⟨hx, hy⟩ := generated_drawing
  obtain ⟨hs, hr, ha, hh⟩ := hx.clean
  have hc := hy.clean.2.2.2
  have hsecond := h.2.1
  simp only [render_of_unaffected _ hx.unaffected, render_clean hy _ hs hr ha hh] at hsecond
  rw [effective_fill_iff [] (hc.replaceAll hs) (hc.replaceAll hr) (hc.replaceAll ha)
    (hc.replaceAll hh)] at hsecond
  exact absurd hsecond.1 (by decide)

end Icecast
