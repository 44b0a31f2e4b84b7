import Dockerfiles.Icecast.Template

/-! # One start of the Icecast image

`docker-entrypoint.sh` takes the passwords from the environment or from `pwgen`,
runs one `sed -i` for each placeholder of `icecast.xml`, prints the passwords and
executes `icecast`. Each value is spliced into the text of a `sed` program, and
the four programs run one after another on the same file.
-/

namespace Icecast

open Shell

/-! ## The script -/

/-- What one start reads: the environment and the output of each `pwgen -1 20`. -/
structure Start where
  hostname : Text
  sourcePassword : Option Text
  relayPassword : Option Text
  adminPassword : Option Text
  sourcePwgen : Text
  relayPwgen : Text
  adminPwgen : Text

/-- ``SOURCE_PASSWORD=${SOURCE_PASSWORD-`pwgen -1 20`}``: a variable that is set
but empty is kept. -/
def Start.source (x : Start) : Text := x.sourcePassword.getD (commandSubst x.sourcePwgen)

def Start.relay (x : Start) : Text := x.relayPassword.getD (commandSubst x.relayPwgen)

def Start.admin (x : Start) : Text := x.adminPassword.getD (commandSubst x.adminPwgen)

section Script

variable (other : Text → Text → Text)

/-- The content of `/etc/icecast/icecast.xml` at the `exec`. -/
def render (x : Start) (file : Text) : Text :=
  let file := sed other (substProgram hostnameWord x.hostname) file
  let file := sed other (substProgram sourceWord x.source) file
  let file := sed other (substProgram relayWord x.relay) file
  sed other (substProgram adminWord x.admin) file

end Script

/-- The lines printed before the `exec`; `version` is the output of `icecast -v`. -/
def output (version : List Text) (source relay admin : Text) : List Text :=
  [] :: version ++ [[], "Source Login:     source / ".toList ++ source,
    "Relay Login:      relay  / ".toList ++ relay,
    "Admin Login:      admin  / ".toList ++ admin, []]

/-! ## One substitution on a filled template -/

private theorem placeholder_chars :
    ∀ w ∈ placeholders, Plain w ∧ w.all isLiteral = true ∧ w ≠ [] := by decide

private theorem placeholder_not_inside :
    ∀ w ∈ placeholders, ∀ w' ∈ placeholders, w ≠ w' → ¬ w <:+: w' := by decide

theorem plain_placeholder {w : Text} (hw : w ∈ placeholders) : Plain w :=
  (placeholder_chars w hw).1

/-- What the program puts in place of the word; a refused program keeps the word. -/
def inserted (w v : Text) : Text :=
  match parse (substProgram w v) with
  | .refused => w
  | _ => expand w v

section Substitution

variable {w : Text} (hw : w ∈ placeholders) (v : Text)

include hw

theorem sed_fill (other : Text → Text → Text) (ho : parse (substProgram w v) ≠ .other)
    (source relay admin hostname : Text) :
    sed other (substProgram w v) (fill source relay admin hostname) =
      fill (replaceAll w (inserted w v) source) (replaceAll w (inserted w v) relay)
        (replaceAll w (inserted w v) admin) (replaceAll w (inserted w v) hostname) := by
  obtain ⟨hplain, hlit, _⟩ := placeholder_chars w hw
  rcases parse_substProgram_cases (fun c hc => ⟨(hplain c hc).1, (hplain c hc).2.2⟩) hlit ho with
    ⟨hp, _⟩ | ⟨hp, _⟩
  · simp [sed, inserted, hp, replaceAll_same]
  · have ht : ∀ entry ∈ [(w, expand w v)], entry.1 ∈ placeholders := by simpa using hw
    have hn : ∀ entry ∈ [(w, expand w v)], '\n' ∉ entry.1 := by
      have hnl : ∀ w ∈ placeholders, '\n' ∉ w := by decide
      simpa using hnl w hw
    have he := editLines_substMany hn (fill source relay admin hostname)
    simp only [sed, inserted, hp]
    unfold replaceAll
    rw [he, substMany_fill ht]

theorem replaceAll_placeholder {w' : Text} (hw' : w' ∈ placeholders) (hne : w ≠ w') :
    replaceAll w v w' = w' :=
  replaceAll_of_not_infix v (placeholder_not_inside w hw w' hw' hne)

theorem replaceAll_placeholder_self : replaceAll w v w = v :=
  replaceAll_self v (placeholder_chars w hw).2.2

theorem inserted_of_plain {v : Text} (hv : Plain v) :
    parse (substProgram w v) ≠ .other ∧ inserted w v = v := by
  obtain ⟨hplain, hlit, _⟩ := placeholder_chars w hw
  have hp := parse_substProgram_plain (fun c hc => ⟨(hplain c hc).1, (hplain c hc).2.2⟩) hlit hv
  simp [inserted, hp, expand_of_plain w hv]

/-- A value found again after replacements that bring in no backslash and no `&`
is a plain one. -/
theorem plain_of_recovered {f : Text → Text} {v : Text} (ho : parse (substProgram w v) ≠ .other)
    (hf : ∀ t, (f t).count '\\' = t.count '\\' ∧ (f t).count '&' = t.count '&')
    (hkeep : f w = w) (h : f (inserted w v) = v) : Plain v := by
  obtain ⟨hplain, hlit, _⟩ := placeholder_chars w hw
  rcases parse_substProgram_cases (fun c hc => ⟨(hplain c hc).1, (hplain c hc).2.2⟩) hlit ho with
    ⟨hp, _⟩ | ⟨hp, hd⟩
  · simp only [inserted, hp] at h
    rw [← h, hkeep]
    exact hplain
  · simp only [inserted, hp] at h
    obtain ⟨hb, ha⟩ := hf (expand w v)
    rw [h] at hb ha
    exact plain_of_count_expand (fun hm => (hplain _ hm).2.2 rfl) (fun hm => (hplain _ hm).2.1 rfl)
      hd hb.symm ha.symm

end Substitution

private theorem hostname_mem : hostnameWord ∈ placeholders := by decide

private theorem source_mem : sourceWord ∈ placeholders := by decide

private theorem relay_mem : relayWord ∈ placeholders := by decide

private theorem admin_mem : adminWord ∈ placeholders := by decide

/-! ## The whole start -/

section Start

variable (other : Text → Text → Text) {x : Start}

/-- None of the four programs goes on after its substitution. -/
def Start.SingleCommands (x : Start) : Prop :=
  parse (substProgram hostnameWord x.hostname) ≠ .other ∧
    parse (substProgram sourceWord x.source) ≠ .other ∧
    parse (substProgram relayWord x.relay) ≠ .other ∧
    parse (substProgram adminWord x.admin) ≠ .other

def afterSource (x : Start) (t : Text) : Text := replaceAll sourceWord (inserted sourceWord x.source) t

def afterRelay (x : Start) (t : Text) : Text := replaceAll relayWord (inserted relayWord x.relay) t

def afterAdmin (x : Start) (t : Text) : Text := replaceAll adminWord (inserted adminWord x.admin) t

theorem render_fill (h : x.SingleCommands) (source relay admin hostname : Text) :
    render other x (fill source relay admin hostname) =
      let f := fun t => afterAdmin x (afterRelay x (afterSource x
        (replaceAll hostnameWord (inserted hostnameWord x.hostname) t)))
      fill (f source) (f relay) (f admin) (f hostname) := by
  unfold render
  simp only
  rw [sed_fill hostname_mem _ other h.1, sed_fill source_mem _ other h.2.1,
    sed_fill relay_mem _ other h.2.2.1, sed_fill admin_mem _ other h.2.2.2]
  rfl

/-- On the shipped template every placeholder is reached by its own program, and
the values put in are then scanned by the programs that follow. -/
theorem render_template (h : x.SingleCommands) :
    render other x icecastXml =
      fill (afterAdmin x (afterRelay x (inserted sourceWord x.source)))
        (afterAdmin x (inserted relayWord x.relay)) (inserted adminWord x.admin)
        (afterAdmin x (afterRelay x (afterSource x (inserted hostnameWord x.hostname)))) := by
  rw [icecastXml_eq_fill, render_fill other h]
  simp only [afterSource, afterRelay, afterAdmin]
  rw [replaceAll_placeholder hostname_mem _ source_mem (by decide),
    replaceAll_placeholder hostname_mem _ relay_mem (by decide),
    replaceAll_placeholder hostname_mem _ admin_mem (by decide),
    replaceAll_placeholder_self hostname_mem, replaceAll_placeholder_self source_mem,
    replaceAll_placeholder source_mem _ relay_mem (by decide),
    replaceAll_placeholder source_mem _ admin_mem (by decide),
    replaceAll_placeholder_self relay_mem,
    replaceAll_placeholder relay_mem _ admin_mem (by decide),
    replaceAll_placeholder_self admin_mem]

end Start

/-! ## Literal rendering -/

/-- The template with each placeholder replaced by its value, in one pass. -/
def literal (x : Start) : Text :=
  substMany [(hostnameWord, x.hostname), (sourceWord, x.source), (relayWord, x.relay),
    (adminWord, x.admin)] icecastXml

theorem literal_eq_fill (x : Start) :
    literal x = fill x.source x.relay x.admin x.hostname := by
  have ht : ∀ entry ∈ [(hostnameWord, x.hostname), (sourceWord, x.source), (relayWord, x.relay),
      (adminWord, x.admin)], entry.1 ∈ placeholders := by
    simp [hostname_mem, source_mem, relay_mem, admin_mem]
  rw [literal, icecastXml_eq_fill, substMany_fill ht]
  congr 1
  · exact List.append_nil x.source
  · exact List.append_nil x.relay
  · exact List.append_nil x.admin
  · exact List.append_nil x.hostname

/-- No value has a character with a meaning in a `sed` program, and the
substitutions that follow a value's own give the value back. -/
def Start.Unaffected (x : Start) : Prop :=
  (Plain x.hostname ∧ Plain x.source ∧ Plain x.relay ∧ Plain x.admin) ∧
    replaceAll adminWord x.admin x.relay = x.relay ∧
    replaceAll adminWord x.admin (replaceAll relayWord x.relay x.source) = x.source ∧
    replaceAll adminWord x.admin (replaceAll relayWord x.relay
      (replaceAll sourceWord x.source x.hostname)) = x.hostname

private theorem count_kept {w v : Text} (hw : w ∈ placeholders) (hv : Plain v) (t : Text) :
    (replaceAll w v t).count '\\' = t.count '\\' ∧ (replaceAll w v t).count '&' = t.count '&' := by
  have hp := plain_placeholder hw
  exact ⟨count_replaceAll (fun hm => (hp _ hm).2.2 rfl) (fun hm => (hv _ hm).2.2 rfl) t,
    count_replaceAll (fun hm => (hp _ hm).2.1 rfl) (fun hm => (hv _ hm).2.1 rfl) t⟩

theorem unaffected_of_recovered {x : Start} (ho : x.SingleCommands)
    (hs : afterAdmin x (afterRelay x (inserted sourceWord x.source)) = x.source)
    (hr : afterAdmin x (inserted relayWord x.relay) = x.relay)
    (ha : inserted adminWord x.admin = x.admin)
    (hh : afterAdmin x (afterRelay x (afterSource x (inserted hostnameWord x.hostname))) =
      x.hostname) : x.Unaffected := by
  -- From the last substitution back to the first: each is plain because those
  -- after it are, and they are therefore the replacements by the values.
  have pa : Plain x.admin := plain_of_recovered admin_mem ho.2.2.2 (f := id) (by simp) rfl ha
  have ea : ∀ t, afterAdmin x t = replaceAll adminWord x.admin t := by
    intro t
    rw [afterAdmin, ha]
  have ka := count_kept admin_mem pa
  simp only [ea] at hs hr hh
  have pr : Plain x.relay := plain_of_recovered relay_mem ho.2.2.1 ka
    (replaceAll_placeholder admin_mem _ relay_mem (by decide)) hr
  have er : ∀ t, afterRelay x t = replaceAll relayWord x.relay t := by
    intro t
    rw [afterRelay, (inserted_of_plain relay_mem pr).2]
  have kr := count_kept relay_mem pr
  simp only [er] at hs hh
  have ps : Plain x.source := by
    apply plain_of_recovered source_mem ho.2.1
      (f := fun t => replaceAll adminWord x.admin (replaceAll relayWord x.relay t)) _ _ hs
    · intro t
      simp only [ka, kr, and_self]
    · rw [replaceAll_placeholder relay_mem _ source_mem (by decide),
        replaceAll_placeholder admin_mem _ source_mem (by decide)]
  have es : ∀ t, afterSource x t = replaceAll sourceWord x.source t := by
    intro t
    rw [afterSource, (inserted_of_plain source_mem ps).2]
  have ks := count_kept source_mem ps
  simp only [es] at hh
  have ph : Plain x.hostname := by
    apply plain_of_recovered hostname_mem ho.1 (f := fun t => replaceAll adminWord x.admin
      (replaceAll relayWord x.relay (replaceAll sourceWord x.source t))) _ _ hh
    · intro t
      simp only [ka, kr, ks, and_self]
    · rw [replaceAll_placeholder source_mem _ hostname_mem (by decide),
        replaceAll_placeholder relay_mem _ hostname_mem (by decide),
        replaceAll_placeholder admin_mem _ hostname_mem (by decide)]
  rw [(inserted_of_plain source_mem ps).2] at hs
  rw [(inserted_of_plain relay_mem pr).2] at hr
  rw [(inserted_of_plain hostname_mem ph).2] at hh
  exact ⟨⟨ph, ps, pr, pa⟩, hr, hs, hh⟩

theorem Start.Unaffected.singleCommands {x : Start} (h : x.Unaffected) : x.SingleCommands := by
  obtain ⟨⟨ph, ps, pr, pa⟩, _⟩ := h
  exact ⟨(inserted_of_plain hostname_mem ph).1, (inserted_of_plain source_mem ps).1,
    (inserted_of_plain relay_mem pr).1, (inserted_of_plain admin_mem pa).1⟩

theorem render_of_unaffected (other : Text → Text → Text) {x : Start} (h : x.Unaffected) :
    render other x icecastXml = fill x.source x.relay x.admin x.hostname := by
  rw [render_template other h.singleCommands]
  obtain ⟨⟨ph, ps, pr, pa⟩, hr, hs, hh⟩ := h
  simp only [afterSource, afterRelay, afterAdmin, (inserted_of_plain hostname_mem ph).2,
    (inserted_of_plain source_mem ps).2, (inserted_of_plain relay_mem pr).2,
    (inserted_of_plain admin_mem pa).2, hr, hs, hh]

/-- A start on the shipped template renders it literally if no value is affected
by its passage through the `sed` programs, and, unless a value extends its
program by further commands, only then. -/
theorem render_literal_iff (other : Text → Text → Text) (x : Start)
    (hh : '\n' ∉ x.hostname) (hs : '\n' ∉ x.source) (hr : '\n' ∉ x.relay) (ha : '\n' ∉ x.admin) :
    (x.Unaffected → render other x icecastXml = literal x) ∧
      (x.SingleCommands → render other x icecastXml = literal x → x.Unaffected) := by
  rw [literal_eq_fill]
  refine ⟨render_of_unaffected other, ?_⟩
  intro ho he
  rw [render_template other ho] at he
  obtain ⟨es, er, ea, eh⟩ := fill_inj hs hr ha hh he
  exact unaffected_of_recovered ho es er ea eh

/-- A start with all four values given by the operator. -/
def Start.withValues (hostname source relay admin : String) : Start where
  hostname := hostname.toList
  sourcePassword := some source.toList
  relayPassword := some relay.toList
  adminPassword := some admin.toList
  sourcePwgen := []
  relayPwgen := []
  adminPwgen := []

theorem render_literal_plain_values :
    render (fun _ file => file) (.withValues "radio.fm" "s1" "r2" "a3") icecastXml =
      literal (.withValues "radio.fm" "s1" "r2" "a3") := by
  refine (render_literal_iff _ _ ?_ ?_ ?_ ?_).1 ⟨⟨?_, ?_, ?_, ?_⟩, ?_, ?_, ?_⟩
  all_goals decide

/-- A slash in the source password: `sed` refuses the program, and the password
is the placeholder. -/
theorem render_slash_leaves_placeholder :
    render (fun _ file => file) (.withValues "radio.fm" "a/b" "r2" "a3") icecastXml ≠
      literal (.withValues "radio.fm" "a/b" "r2" "a3") := by
  intro h
  have ho : (Start.withValues "radio.fm" "a/b" "r2" "a3").SingleCommands := by
    unfold Start.SingleCommands
    decide
  rw [render_template _ ho, literal_eq_fill] at h
  have hs := (fill_inj (by decide) (by decide) (by decide) (by decide) h).1
  exact absurd hs (by decide)

end Icecast
