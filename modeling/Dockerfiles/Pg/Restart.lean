import Dockerfiles.Pg.Credentials

/-! # What a restart does to an initialised volume

Since the guard is open at every start, a later start runs all the edits of the
first one again. It leaves the configuration, the access rules and the pwfile
alone only where each of these edits happens to change nothing.
-/

namespace Pg

open Shell

variable {i : Initdb} {s : State} {x : Start}

/-! ## One line -/

theorem newline_not_mem_replaceFirst {w v : Text} (hv : '\n' ∉ v) (l : Text) (hl : '\n' ∉ l) :
    '\n' ∉ replaceFirst w v l := by
  induction l with
  | nil => simp [replaceFirst]
  | cons c cs ih =>
      simp only [replaceFirst]
      split
      · intro h
        rcases List.mem_append.mp h with h | h
        · exact hv h
        · exact hl (List.mem_of_mem_drop h)
      · have hcs : '\n' ∉ cs := fun h => hl (List.mem_cons_of_mem c h)
        simp only [List.mem_cons, not_or]
        exact ⟨fun h => hl (h ▸ List.mem_cons_self), ih hcs⟩

theorem newline_not_mem_disableSsl (l : Text) (hl : '\n' ∉ l) : '\n' ∉ disableSsl l :=
  newline_not_mem_replaceFirst (by decide) l hl

/-- Every character of the match is one of the line, but for the new value. -/
theorem mem_of_matchListen {l group rest : Text} (h : matchListen l = some (group, rest)) {c : Char}
    (hc : c ∈ group ++ rest) : c ∈ l := by
  unfold matchListen at h
  split at h
  case isFalse => cases h
  case isTrue hp =>
    have hl := (List.prefix_iff_eq_append.mp (List.isPrefixOf_iff_prefix.mp hp)).symm
    simp only at h
    split at h
    case h_2 => cases h
    case h_1 value hv =>
      split at h
      case h_1 => cases h
      case h_2 d ds hd =>
        simp only [Option.some.injEq, Prod.mk.injEq] at h
        obtain ⟨rfl, rfl⟩ := h
        generalize hr : l.drop "#listen_addresses".toList.length = r at hl hv hc
        have hrest : r = r.takeWhile isSpace ++ '=' :: value := by
          rw [← hv, List.takeWhile_append_dropWhile]
        have hvalue : value = value.takeWhile isSpace ++ d :: ds := by
          rw [← hd, List.takeWhile_append_dropWhile]
        have hds : ∀ e ∈ (d :: ds).dropWhile (fun c => !isSpace c), e ∈ d :: ds :=
          fun e he => (List.dropWhile_sublist _).mem he
        rw [hl, hrest, hvalue]
        simp only [List.mem_append, List.mem_cons] at hc ⊢
        rcases hc with ((hc | hc) | rfl | hc) | hc
        · exact .inl (List.mem_cons_of_mem '#' hc)
        · exact .inr (.inl hc)
        · exact .inr (.inr (.inl rfl))
        · exact .inr (.inr (.inr (.inl hc)))
        · exact .inr (.inr (.inr (.inr (List.mem_cons.mp (hds c hc)))))

theorem newline_not_mem_listenAll (l : Text) (hl : '\n' ∉ l) : '\n' ∉ listenAll l := by
  unfold listenAll
  split
  next group rest hm =>
    intro h
    rw [List.append_assoc, List.mem_append, List.mem_append] at h
    rcases h with h | h | h
    · exact hl (mem_of_matchListen hm (List.mem_append_left rest h))
    · exact absurd h (by decide)
    · exact hl (mem_of_matchListen hm (List.mem_append_right group h))
  next => exact hl

/-- Neither edit of the configuration applies to the line. -/
def LineLeftAlone (l : Text) : Prop := ¬ "ssl = true".toList <:+: l ∧ matchListen l = none

theorem matchListen_head {l group rest : Text} (h : matchListen l = some (group, rest)) :
    l.head? = some '#' ∧ group.head? = some 'l' := by
  unfold matchListen at h
  split at h
  case isFalse => cases h
  case isTrue hp =>
    obtain ⟨t, rfl⟩ := List.isPrefixOf_iff_prefix.mp hp
    refine ⟨rfl, ?_⟩
    simp only at h
    split at h
    case h_2 => cases h
    case h_1 =>
      split at h
      case h_1 => cases h
      case h_2 =>
        simp only [Option.some.injEq, Prod.mk.injEq] at h
        rw [← h.1]
        rfl

/-- The two edits together keep a line exactly when neither applies to it: the
first makes it longer, and the second takes a `#` off its head. -/
theorem listenAll_disableSsl_eq_self_iff (l : Text) :
    listenAll (disableSsl l) = l ↔ LineLeftAlone l := by
  constructor
  · intro h
    cases hm : matchListen (disableSsl l) with
    | none =>
        have hd : disableSsl l = l := by simpa [listenAll, hm] using h
        refine ⟨?_, by rw [← hd]; exact hm⟩
        intro hi
        have hlen := length_replaceFirst_of_infix "#ssl = true".toList (by decide) hi
        have hd' : replaceFirst "ssl = true".toList "#ssl = true".toList l = l := hd
        rw [hd'] at hlen
        simp at hlen
    | some parts =>
        obtain ⟨hhead, hgroup⟩ := matchListen_head hm
        have hl : l.head? = some 'l' := by
          rw [← h, listenAll, hm]
          cases hg : parts.1 with
          | nil => simp [hg] at hgroup
          | cons c cs => simpa [hg] using hgroup
        cases l with
        | nil => cases hl
        | cons c cs =>
            obtain rfl : c = 'l' := by simpa using hl
            simp [disableSsl, replaceFirst] at hhead
  · rintro ⟨hs, hm⟩
    have hd : disableSsl l = l := replaceFirst_of_not_infix _ hs
    simp [hd, listenAll, hm]

/-! ## A later start -/

def editConf (conf : Text) : Text := editLines listenAll (editLines disableSsl conf)

theorem editConf_eq_self_iff (conf : Text) :
    editConf conf = conf ↔ ∀ l ∈ conf.splitOn '\n', LineLeftAlone l := by
  rw [editConf, editLines_editLines newline_not_mem_disableSsl, editLines_eq_self_iff]
  · exact forall₂_congr fun l _ => listenAll_disableSsl_eq_self_iff l
  · intro l hl
    exact newline_not_mem_listenAll _ (newline_not_mem_disableSsl l hl)

/-- The volume with the operator's own content for the three files. -/
def State.edited (s : State) (conf hba pw : Text) : State :=
  { s with volume :=
    ⟨some { s.volume.pgdata.getD DataDir.empty with postgresqlConf := some conf, pgHba := some hba },
      some pw⟩ }

/-- The start leaves the three files and the cluster as it finds them. -/
def Leaves (i : Initdb) (s : State) (x : Start) : Prop :=
  (start i s x).volume.postgresqlConf = s.volume.postgresqlConf ∧
    (start i s x).volume.pgHba = s.volume.pgHba ∧
    (start i s x).volume.pwfile = s.volume.pwfile ∧
    (start i s x).volume.cluster = s.volume.cluster

/-- Every edit of the guarded block would change nothing, or the block is not run. -/
def Unchanging (conf hba pw : Text) (x : Start) : Prop :=
  x.cwdHasPwfile = true ∨
    ((∀ l ∈ conf.splitOn '\n', LineLeftAlone l) ∧ hba = hbaLocal ++ hbaHost ∧ pw = echo [x.secret])

theorem start_closed (hc : x.cwdHasPwfile = true) (hl : x.launches) :
    (start i s x).volume = s.volume := by
  simp [start, show x.killedAfter = none from hl, script, hc]

/-- With the guard open, a later start puts its own content in place of all three. -/
theorem start_edited (ho : x.cwdHasPwfile = false) (hl : x.launches) (conf hba pw : Text) :
    (start i (s.edited conf hba pw) x).volume =
      (s.edited (editConf conf) (hbaLocal ++ hbaHost) (echo [x.secret])).volume := by
  have hb : (beforeInitdb (s.edited conf hba pw) x).volume.pgdata =
      some { s.volume.pgdata.getD DataDir.empty with
        postgresqlConf := some conf, pgHba := some hba } := beforeInitdb_pgdata
  have hn : (beforeInitdb (s.edited conf hba pw) x).volume.pgdata ≠ some DataDir.empty := by
    simp [hb, DataDir.empty]
  have hpw := start_pwfile (i := i) (s := s.edited conf hba pw) ho hl
  have hpg : (start i (s.edited conf hba pw) x).volume.pgdata =
      some { s.volume.pgdata.getD DataDir.empty with
        postgresqlConf := some (editConf conf), pgHba := some (hbaLocal ++ hbaHost) } := by
    rw [start_eq_phases ho hl]
    simp [afterInitdb, sedConf, writeHba, appendHba, printPgpassword, initdb,
      i.run_of_not_empty hn, hb, editConf]
  cases hv : (start i (s.edited conf hba pw) x).volume with
  | mk pgdata pwfile =>
      rw [hv] at hpg hpw
      subst hpg hpw
      rfl

theorem leaves_edited_iff (hl : x.launches) (conf hba pw : Text) :
    Leaves i (s.edited conf hba pw) x ↔ Unchanging conf hba pw x := by
  cases hc : x.cwdHasPwfile with
  | true =>
      simp [Leaves, Unchanging, hc, start_closed hc hl]
  | false =>
      simp only [Leaves, start_edited hc hl, Unchanging, hc, Bool.false_eq_true, false_or,
        ← editConf_eq_self_iff]
      simp only [State.edited, Volume.postgresqlConf, Volume.pgHba, Volume.cluster,
        Option.bind_some, Option.some.injEq, and_true]
      exact and_congr_right fun _ => and_congr eq_comm eq_comm

/-- A start that changes none of the three files leaves the volume as it is. -/
theorem start_edited_of_unchanging (hl : x.launches) {conf hba pw : Text}
    (hu : Unchanging conf hba pw x) :
    (start i (s.edited conf hba pw) x).volume = (s.edited conf hba pw).volume := by
  cases hc : x.cwdHasPwfile with
  | true => exact start_closed hc hl
  | false =>
      obtain ⟨hconf, hhba, hpw⟩ := hu.resolve_left (by simp [hc])
      rw [start_edited hc hl, (editConf_eq_self_iff conf).mpr hconf, hhba, hpw]

/-! ## Sequences of later starts -/

/-- Leaving alone depends on the volume, not on the log. -/
theorem edited_of_volume_eq {t : State} {conf hba pw : Text}
    (h : t.volume = (s.edited conf hba pw).volume) : t = t.edited conf hba pw := by
  cases t with
  | mk volume log =>
      simp only at h
      subst h
      simp [State.edited]

/-- Whatever the volume and the content given to the three files: later starts
leave them and the cluster alone exactly when for each of them the configuration
has no line that the edits apply to, the access rules are the script's own two
lines, and the pwfile is the line the start itself would write; or when a file
called `PWFILE` in the working directory closes the guard. -/
theorem restarts_leave_volume_iff (i : Initdb) (s : State) (conf hba pw : Text) (xs : List Start)
    (hl : ∀ x ∈ xs, x.launches) :
    AtEach (start i) (Leaves i) (s.edited conf hba pw) xs ↔
      ∀ x ∈ xs, Unchanging conf hba pw x := by
  induction xs generalizing s with
  | nil => simp [AtEach]
  | cons x xs ih =>
      have hx := hl x List.mem_cons_self
      have hxs : ∀ y ∈ xs, y.launches := fun y hy => hl y (List.mem_cons_of_mem x hy)
      simp only [AtEach, List.forall_mem_cons, leaves_edited_iff hx]
      refine and_congr_right fun hu => ?_
      rw [edited_of_volume_eq (start_edited_of_unchanging hx hu)]
      exact ih _ hxs

/-- The volume a first start leaves, restarted with the same password. -/
theorem restarts_leave_volume_same_password :
    (Start.withPassword "secret").launches ∧
    AtEach (start ⟨[], []⟩) (Leaves ⟨[], []⟩)
      ((start ⟨[], []⟩ State.initial (Start.withPassword "secret")).edited
        "port = 5432\n".toList (hbaLocal ++ hbaHost) "secret\n".toList)
      [Start.withPassword "secret"] := by
  have hl : ∀ x ∈ [Start.withPassword "secret"], x.launches := by
    simp [Start.launches, Start.withPassword]
  refine ⟨rfl, (restarts_leave_volume_iff _ _ _ _ _ _ hl).mpr ?_⟩
  intro x hx
  obtain rfl : x = Start.withPassword "secret" := by simpa using hx
  right
  refine ⟨?_, rfl, by decide⟩
  unfold LineLeftAlone
  decide

/-- An edited access rule does not survive the next start. -/
theorem restart_overwrites_hba :
    ¬ AtEach (start ⟨[], []⟩) (Leaves ⟨[], []⟩)
      ((start ⟨[], []⟩ State.initial (Start.withPassword "secret")).edited
        "port = 5432\n".toList "local\tall\tall\treject\n".toList "secret\n".toList)
      [Start.withPassword "secret"] := by
  intro h
  exact absurd h.1.2.1 (by decide)

end Pg
