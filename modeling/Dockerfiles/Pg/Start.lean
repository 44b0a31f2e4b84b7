import Dockerfiles.Shell.Echo
import Dockerfiles.Shell.Script
import Dockerfiles.Shell.Sed

/-! # The start script of the PostgreSQL image

`pg/start` keeps the superuser's password in three places: the file
`${PGDATA}/../pwfile`, the cluster made by `initdb`, and the `PGPASSWORD=` line
of the log. The script has no `set -e`, so every command runs whatever the one
before it did, and a start may be killed between any two of them. Owners and
modes are read by no later command of the script and are left out.
-/

namespace Pg

open Shell

/-! ## The data volume -/

/-- A cluster made by `initdb`, with the password of its superuser `postgres`. -/
structure Cluster where
  password : Text
  deriving DecidableEq

/-- The content of `${PGDATA}`. -/
structure DataDir where
  cluster : Option Cluster
  postgresqlConf : Option Text
  pgHba : Option Text
  deriving DecidableEq

def DataDir.empty : DataDir := ⟨none, none, none⟩

/-- The volume `/var/lib/postgresql`: `${PGDATA}`, `none` while there is no such
directory, and `${PGDATA}/../pwfile`. -/
structure Volume where
  pgdata : Option DataDir
  pwfile : Option Text
  deriving DecidableEq

def Volume.empty : Volume := ⟨none, none⟩

def Volume.cluster (v : Volume) : Option Cluster := v.pgdata.bind DataDir.cluster

def Volume.postgresqlConf (v : Volume) : Option Text := v.pgdata.bind DataDir.postgresqlConf

def Volume.pgHba (v : Volume) : Option Text := v.pgdata.bind DataDir.pgHba

inductive LogLine where
  | pguser
  | pgpassword (value : Text)
  | starting
  deriving DecidableEq

structure State where
  volume : Volume
  log : List LogLine
  deriving DecidableEq

def State.initial : State := ⟨Volume.empty, []⟩

/-- The value of the last `PGPASSWORD=` line. -/
def State.lastPgpassword (s : State) : Option Text :=
  s.log.reverse.findSome? fun
    | .pgpassword value => some value
    | _ => none

def State.modifyVolume (f : Volume → Volume) (s : State) : State := { s with volume := f s.volume }

def State.modifyData (f : DataDir → DataDir) (s : State) : State :=
  s.modifyVolume fun v => { v with pgdata := v.pgdata.map f }

def State.print (line : LogLine) (s : State) : State := { s with log := s.log ++ [line] }

section Fields

variable (s : State) (f : Volume → Volume) (g : DataDir → DataDir) (line : LogLine)

@[simp] theorem State.modifyVolume_volume : (s.modifyVolume f).volume = f s.volume := rfl

@[simp] theorem State.modifyVolume_log : (s.modifyVolume f).log = s.log := rfl

@[simp] theorem State.modifyData_pgdata :
    (s.modifyData g).volume.pgdata = s.volume.pgdata.map g := rfl

@[simp] theorem State.modifyData_pwfile : (s.modifyData g).volume.pwfile = s.volume.pwfile := rfl

@[simp] theorem State.modifyData_log : (s.modifyData g).log = s.log := rfl

@[simp] theorem State.print_volume : (s.print line).volume = s.volume := rfl

@[simp] theorem State.print_log : (s.print line).log = s.log ++ [line] := rfl

end Fields

/-! ## The external `initdb` -/

/-- The configuration files `initdb` writes into a new cluster. -/
structure Initdb where
  conf : Text
  hba : Text

/-- `initdb --pwfile` takes the first line of the file for the password and
refuses an empty file. A directory that is not empty it leaves alone. -/
def Initdb.run (i : Initdb) (v : Volume) : Volume :=
  match v.pwfile with
  | some (c :: cs) =>
      if v.pgdata = some DataDir.empty then
        { v with pgdata := some ⟨some ⟨firstLine (c :: cs)⟩, some i.conf, some i.hba⟩ }
      else v
  | _ => v

@[simp] theorem Initdb.run_pwfile (i : Initdb) (v : Volume) : (i.run v).pwfile = v.pwfile := by
  unfold Initdb.run
  split
  · split <;> rfl
  · rfl

theorem Initdb.run_of_pwfile_empty (i : Initdb) {v : Volume} (h : v.pwfile = some []) :
    i.run v = v := by
  simp [Initdb.run, h]

theorem Initdb.run_of_not_empty (i : Initdb) {v : Volume} (h : v.pgdata ≠ some DataDir.empty) :
    i.run v = v := by
  unfold Initdb.run
  split
  · simp [h]
  · rfl

theorem Initdb.run_pgdata (i : Initdb) {v : Volume} {t : Text} (hv : v.pgdata = some DataDir.empty)
    (ht : v.pwfile = some t) (hne : t ≠ []) :
    (i.run v).pgdata = some ⟨some ⟨firstLine t⟩, some i.conf, some i.hba⟩ := by
  obtain ⟨c, cs, rfl⟩ := List.exists_cons_of_ne_nil hne
  simp [Initdb.run, hv, ht]

/-! ## The edits of the configuration -/

/-- `s/ssl = true/#ssl = true/` -/
def disableSsl (line : Text) : Text := replaceFirst "ssl = true".toList "#ssl = true".toList line

/-- The class `\s` of GNU sed. -/
def isSpace (c : Char) : Bool :=
  c == ' ' || c == '\t' || c == '\n' || c == '\r' || c.toNat == 11 || c.toNat == 12

/-- The parts of a line matched by `^#(listen_addresses\s*=\s*)\S+`: the group
and what follows the match. -/
def matchListen (line : Text) : Option (Text × Text) :=
  if "#listen_addresses".toList.isPrefixOf line then
    let rest := line.drop "#listen_addresses".toList.length
    match rest.dropWhile isSpace with
    | '=' :: value =>
        match value.dropWhile isSpace with
        | [] => none
        | c :: cs =>
            some ("listen_addresses".toList ++ rest.takeWhile isSpace ++
              '=' :: value.takeWhile isSpace, (c :: cs).dropWhile fun c => !isSpace c)
    | _ => none
  else none

/-- `s/^#(listen_addresses\s*=\s*)\S+/\1'*'/` -/
def listenAll (line : Text) : Text :=
  match matchListen line with
  | some (group, rest) => group ++ "'*'".toList ++ rest
  | none => line

/-- `echo -e "local\tall\tpostgres\t\ttrust"` -/
def hbaLocal : Text := echo ["-e".toList, "local\\tall\\tpostgres\\t\\ttrust".toList]

/-- `echo -e "host\tall\tall\t\tall\tmd5"` -/
def hbaHost : Text := echo ["-e".toList, "host\\tall\\tall\\t\\tall\\tmd5".toList]

/-! ## Commands -/

/-- `mkdir -p ${PGDATA}` -/
def mkdirPgdata (s : State) : State :=
  s.modifyVolume fun v => { v with pgdata := some (v.pgdata.getD DataDir.empty) }

/-- `chown -Rf` and `chmod` touch owners and modes only. -/
def retouch (s : State) : State := s

/-- A redirection `> ${PWFILE}`; the path goes through `${PGDATA}`. -/
def writePwfile (text : Text) (s : State) : State :=
  s.modifyVolume fun v => if v.pgdata.isSome then { v with pwfile := some text } else v

def initdb (i : Initdb) (s : State) : State := s.modifyVolume i.run

/-- `sed -i` on `${PGDATA}/postgresql.conf`, which fails where there is no such file. -/
def sedConf (f : Text → Text) (s : State) : State :=
  s.modifyData fun d => { d with postgresqlConf := d.postgresqlConf.map (editLines f) }

def writeHba (text : Text) (s : State) : State :=
  s.modifyData fun d => { d with pgHba := some text }

def appendHba (text : Text) (s : State) : State :=
  s.modifyData fun d => { d with pgHba := some (d.pgHba.getD [] ++ text) }

/-- ``echo "PGPASSWORD=`cat ${PWFILE}`"`` -/
def printPgpassword (s : State) : State :=
  s.print (.pgpassword (commandSubst (s.volume.pwfile.getD [])))

/-! ## One start -/

/-- What one start of the container brings: the variable `PASSWORD` (`none` when
unset), the output of `pwgen`, whether the working directory holds a regular
file called `PWFILE`, and after how many commands the start is killed, if it is. -/
structure Start where
  password : Option Text
  pwgen : Text
  cwdHasPwfile : Bool
  killedAfter : Option Nat

/-- ``${PASSWORD:-`pwgen -s 20 1`}`` -/
def Start.secret (x : Start) : Text :=
  match x.password with
  | some (c :: cs) => c :: cs
  | _ => commandSubst x.pwgen

/-- A start with the given `PASSWORD` in a container without a file `PWFILE`. -/
def Start.withPassword (password : String) : Start := ⟨some password.toList, [], false, none⟩

/-- The commands inside the `if`. -/
def firstBoot (i : Initdb) (x : Start) : List (State → State) :=
  [mkdirPgdata, retouch, retouch,
    writePwfile [],
    writePwfile (echo [x.secret]),
    initdb i,
    sedConf disableSsl,
    sedConf listenAll,
    writeHba hbaLocal,
    appendHba hbaHost,
    State.print .pguser,
    printPgpassword]

/-- The whole script. The guard `[ ! -f PWFILE ]` tests the word `PWFILE`, a file
of the working directory, and not the value of the variable. -/
def script (i : Initdb) (x : Start) : List (State → State) :=
  (if x.cwdHasPwfile then [] else firstBoot i x) ++ [State.print .starting]

def start (i : Initdb) (s : State) (x : Start) : State :=
  match x.killedAfter with
  | none => runAll (script i x) s
  | some k => runAll ((script i x).take k) s

/-- A start that is not killed ends in the `exec` of `postgres`. -/
def Start.launches (x : Start) : Prop := x.killedAfter = none

end Pg
