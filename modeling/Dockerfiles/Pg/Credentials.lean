import Dockerfiles.Pg.Start

/-! # The superuser's password over restarts

The guard of the script is open at every start, so every start writes its own
password to the pwfile and to the log, while `initdb` sets the cluster's
password once. The three agree exactly as long as each later start happens to
bring the password the cluster was made with.
-/

namespace Pg

open Shell

variable {i : Initdb} {s : State} {x : Start}

/-! ## What a launching start leaves -/

/-- The directory `${PGDATA}` is empty or not there yet. -/
def State.Fresh (s : State) : Prop := s.volume.pgdata.getD DataDir.empty = DataDir.empty

theorem start_open (ho : x.cwdHasPwfile = false) (hl : x.launches) :
    start i s x = runAll (firstBoot i x ++ [State.print .starting]) s := by
  simp [start, show x.killedAfter = none from hl, script, ho]

/-- The commands up to `initdb`, which is the only one that reads the password. -/
def beforeInitdb (s : State) (x : Start) : State :=
  runAll [mkdirPgdata, retouch, retouch, writePwfile [], writePwfile (echo [x.secret])] s

theorem beforeInitdb_pgdata :
    (beforeInitdb s x).volume.pgdata = some (s.volume.pgdata.getD DataDir.empty) := by
  simp [beforeInitdb, mkdirPgdata, retouch, writePwfile]

theorem beforeInitdb_pwfile :
    (beforeInitdb s x).volume.pwfile = some (echo [x.secret]) := by
  simp [beforeInitdb, mkdirPgdata, retouch, writePwfile]

/-- The rest of the block and of the script. -/
def afterInitdb (s : State) : State :=
  runAll [sedConf disableSsl, sedConf listenAll, writeHba hbaLocal, appendHba hbaHost,
    State.print .pguser, printPgpassword, State.print .starting] s

theorem start_eq_phases (ho : x.cwdHasPwfile = false) (hl : x.launches) :
    start i s x = afterInitdb (initdb i (beforeInitdb s x)) := by
  rw [start_open ho hl]
  rfl

theorem afterInitdb_cluster (s : State) :
    (afterInitdb s).volume.cluster = s.volume.cluster := by
  cases h : s.volume.pgdata <;>
    simp [afterInitdb, sedConf, writeHba, appendHba, printPgpassword, Volume.cluster, h]

theorem afterInitdb_pwfile (s : State) : (afterInitdb s).volume.pwfile = s.volume.pwfile := by
  simp [afterInitdb, sedConf, writeHba, appendHba, printPgpassword]

theorem afterInitdb_lastPgpassword (s : State) :
    (afterInitdb s).lastPgpassword = some (commandSubst (s.volume.pwfile.getD [])) := by
  simp [afterInitdb, sedConf, writeHba, appendHba, printPgpassword, State.lastPgpassword]

theorem start_pwfile (ho : x.cwdHasPwfile = false) (hl : x.launches) :
    (start i s x).volume.pwfile = some (echo [x.secret]) := by
  rw [start_eq_phases ho hl, afterInitdb_pwfile]
  simp [initdb, beforeInitdb_pwfile]

theorem start_lastPgpassword (ho : x.cwdHasPwfile = false) (hl : x.launches) :
    (start i s x).lastPgpassword = some (commandSubst (echo [x.secret])) := by
  rw [start_eq_phases ho hl, afterInitdb_lastPgpassword]
  simp [initdb, beforeInitdb_pwfile]

theorem start_cluster_of_fresh (ho : x.cwdHasPwfile = false) (hl : x.launches) (hf : s.Fresh)
    (hne : echo [x.secret] ≠ []) :
    (start i s x).volume.cluster = some ⟨firstLine (echo [x.secret])⟩ := by
  have hd : (beforeInitdb s x).volume.pgdata = some DataDir.empty := by
    rw [beforeInitdb_pgdata, show s.volume.pgdata.getD DataDir.empty = DataDir.empty from hf]
  rw [start_eq_phases ho hl, afterInitdb_cluster]
  simp [initdb, Volume.cluster, i.run_pgdata hd beforeInitdb_pwfile hne]

theorem start_cluster_of_empty_pwfile (ho : x.cwdHasPwfile = false) (hl : x.launches)
    (he : echo [x.secret] = []) : (start i s x).volume.cluster = s.volume.cluster := by
  have hp : (beforeInitdb s x).volume.pwfile = some [] := by rw [beforeInitdb_pwfile, he]
  rw [start_eq_phases ho hl, afterInitdb_cluster]
  cases h : s.volume.pgdata <;>
    simp [initdb, i.run_of_pwfile_empty hp, Volume.cluster, beforeInitdb_pgdata, h, DataDir.empty]

theorem start_cluster_of_not_fresh (ho : x.cwdHasPwfile = false) (hl : x.launches)
    (hf : ¬ s.Fresh) : (start i s x).volume.cluster = s.volume.cluster := by
  have hd : (beforeInitdb s x).volume.pgdata ≠ some DataDir.empty := by
    rw [beforeInitdb_pgdata]
    exact fun h => hf (Option.some.inj h)
  rw [start_eq_phases ho hl, afterInitdb_cluster]
  cases h : s.volume.pgdata <;>
    simp [initdb, i.run_of_not_empty hd, Volume.cluster, beforeInitdb_pgdata, h, DataDir.empty]

/-! ## Agreement -/

/-- The pwfile and the log give the password of the cluster, if there is one. -/
def Agrees (s : State) : Prop :=
  ∀ c, s.volume.cluster = some c →
    s.volume.pwfile.map commandSubst = some c.password ∧ s.lastPgpassword = some c.password

/-- The password of a start as the script itself reads it back from the pwfile. -/
def Start.written (x : Start) : Text := commandSubst (echo [x.secret])

/-- The start brings the password of the cluster it finds, or, where it is to
make the cluster, a password of one line. -/
def Matches (s : State) (x : Start) : Prop :=
  (∀ c, s.volume.cluster = some c → c.password = x.written) ∧ (s.Fresh → '\n' ∉ x.written)

theorem cluster_eq_none_of_fresh (hf : s.Fresh) : s.volume.cluster = none := by
  unfold State.Fresh at hf
  cases h : s.volume.pgdata with
  | none => simp [Volume.cluster, h]
  | some d =>
      rw [h] at hf
      have hd : d = DataDir.empty := hf
      simp [Volume.cluster, h, hd, DataDir.empty]

theorem start_agrees_iff (ho : x.cwdHasPwfile = false) (hl : x.launches) :
    Agrees (start i s x) ↔ ∀ c, (start i s x).volume.cluster = some c → c.password = x.written := by
  unfold Agrees
  rw [start_pwfile ho hl, start_lastPgpassword ho hl]
  refine forall₂_congr fun c _ => ?_
  simp only [Option.map_some, Option.some.injEq, and_self, Start.written]
  exact eq_comm

/-- One start, whatever it finds on the volume. -/
theorem start_agrees_iff_matches (ho : x.cwdHasPwfile = false) (hl : x.launches) :
    Agrees (start i s x) ↔ Matches s x := by
  rw [start_agrees_iff ho hl]
  by_cases hf : s.Fresh
  · have hnone := cluster_eq_none_of_fresh hf
    by_cases he : echo [x.secret] = []
    · have hw : '\n' ∉ x.written := by simp [Start.written, he, commandSubst]
      simp [Matches, start_cluster_of_empty_pwfile ho hl he, hnone, hw]
    · rw [start_cluster_of_fresh ho hl hf he]
      simpa [Matches, Start.written, hnone, hf] using firstLine_eq_commandSubst_iff (echo [x.secret])
  · simp [Matches, start_cluster_of_not_fresh ho hl hf, hf]

/-- Over any sequence of starts from an empty volume, killed or not, the three
places agree at every launch of `postgres` exactly when every launching start
brings the password of the cluster it finds, and the one that makes the cluster
a password of one line. -/
theorem credentials_agree_iff (i : Initdb) (xs : List Start)
    (ho : ∀ x ∈ xs, x.cwdHasPwfile = false) :
    AtEach (start i) (fun s x => x.launches → Agrees (start i s x)) State.initial xs ↔
      AtEach (start i) (fun s x => x.launches → Matches s x) State.initial xs := by
  apply atEach_congr (I := fun _ => True) trivial
  · intros
    trivial
  · intro s x hx _
    exact imp_congr_right fun hl => start_agrees_iff_matches (ho x hx) hl

/-- A first start killed after `initdb`, and a second with the same password. -/
theorem credentials_agree_same_password :
    (∀ x ∈ [{ Start.withPassword "secret" with killedAfter := some 6 },
      Start.withPassword "secret"], x.cwdHasPwfile = false) ∧
    AtEach (start ⟨[], []⟩) (fun s x => x.launches → Agrees (start ⟨[], []⟩ s x)) State.initial
      [{ Start.withPassword "secret" with killedAfter := some 6 }, Start.withPassword "secret"] := by
  have ho : ∀ x ∈ [{ Start.withPassword "secret" with killedAfter := some 6 },
      Start.withPassword "secret"], x.cwdHasPwfile = false := by simp [Start.withPassword]
  refine ⟨ho, (credentials_agree_iff ⟨[], []⟩ _ ho).mpr ⟨?_, ?_, trivial⟩⟩
  · intro h
    cases h
  · intro _
    refine ⟨?_, ?_⟩
    · intro c hc
      have hm : (start ⟨[], []⟩ State.initial
          { Start.withPassword "secret" with killedAfter := some 6 }).volume.cluster =
          some ⟨"secret".toList⟩ := by decide
      rw [hm] at hc
      cases hc
      decide
    · intro _
      decide

/-- A restart with another password: the pwfile holds `second`, the cluster `first`. -/
theorem credentials_differ_after_restart :
    ¬ AtEach (start ⟨[], []⟩) (fun s x => x.launches → Agrees (start ⟨[], []⟩ s x)) State.initial
      [Start.withPassword "first", Start.withPassword "second"] := by
  intro h
  have hc := h.2.1 rfl ⟨"first".toList⟩ (by decide)
  exact absurd hc.1 (by decide)

end Pg
