import Dockerfiles.Shell.Echo
import Dockerfiles.Shell.Test
import Mathlib.Algebra.Order.BigOperators.Group.List
import Mathlib.Algebra.Order.Group.Nat

/-! # The mirror list of the apt-mirror image

`docker-entrypoint.sh` renders the template over `/etc/apt/mirror.list` and then
appends the entries of each distro, flavor and branch, in three nested loops. The
test for source entries expands its variable unquoted, so what it says depends
on the number of words the value splits into.
-/

namespace AptMirror

open Shell

/-! ## The environment -/

/-- The values of the variables, empty for one that is not set. -/
abbrev Env := Text → Text

def Env.mirrorProto (env : Env) : Text := env "MIRROR_PROTO".toList

def Env.mirrorHost (env : Env) : Text := env "MIRROR_HOST".toList

def Env.mirrorComponents (env : Env) : Text := env "MIRROR_COMPONENTS".toList

def Env.mirrorIncludeSource (env : Env) : Text := env "MIRROR_INCLUDE_SOURCE".toList

/-- `export DEFAULTARCH=${DEFAULTARCH:-amd64}` -/
def Env.exportDefaultarch (env : Env) : Env := fun name =>
  if name = "DEFAULTARCH".toList ∧ env name = [] then "amd64".toList else env name

/-- What one start reads: the environment, the pathname expansion of a word in the
working directory, and what `[` asks of the system. -/
structure Start where
  env : Env
  glob : Text → List Text
  primaries : Primaries

/-- The words of an unquoted expansion. -/
def Start.words (x : Start) (value : Text) : List Text := (fields value).flatMap x.glob

def Start.distros (x : Start) : List Text := x.words (x.env "MIRROR_DISTROS".toList)

def Start.flavors (x : Start) : List Text := x.words (x.env "MIRROR_FLAVORS".toList)

def Start.branches (x : Start) : List Text := x.words (x.env "MIRROR_BRANCHES".toList)

/-! ## The template -/

/-- `apt/mirror.list.template`, one string a line. -/
def templateLines : List String := [
  "set base_path         $\x7bBASE_PATH\x7d",
  "set mirror_path       $\x7bMIRROR_PATH\x7d",
  "set skel_path         $\x7bSKEL_PATH\x7d",
  "set var_path          $\x7bVAR_PATH\x7d",
  "set defaultarch       $\x7bDEFAULTARCH\x7d",
  "",
  "# Post-mirror script - runs after mirroring; useful for rsync, etc.",
  "set postmirror_script $\x7bPOSTMIRROR_SCRIPT\x7d",
  "set run_postmirror    $\x7bRUN_POSTMIRROR\x7d",
  "",
  "# How many threads you want, and whether or not to run in the home directory",
  "set nthreads          $\x7bNTHREADS\x7d",
  "set _tilde            $\x7bTILDE\x7d",
  "",
  "# Use --unlink with wget (for use with hardlinked directories)",
  "set unlink            $\x7bUNLINK\x7d",
  "",
  "set limit_rate        $\x7bMIRROR_LIMIT_RATE\x7d",
  "",
  "# Proxy settings",
  "set use_proxy         $\x7bUSE_PROXY\x7d",
  "set http_proxy        $\x7bHTTP_PROXY\x7d",
  "set proxy_user        $\x7bPROXY_USER\x7d",
  "set proxy_password    $\x7bPROXY_PASSWORD\x7d"]

def template : Text := templateLines.flatMap fun l => l.toList ++ ['\n']

def isNameChar (c : Char) : Bool := c.isAlphanum || c == '_'

/-- The name and the length of the reference that stands at the head of the text,
in braces or without. -/
def reference (t : Text) : Option (Text × Nat) :=
  match t with
  | '$' :: '\x7b' :: cs =>
      let name := cs.takeWhile isNameChar
      match name, cs.drop name.length with
      | c :: _, '\x7d' :: _ => if c.isDigit then none else some (name, name.length + 3)
      | _, _ => none
  | '$' :: cs =>
      let name := cs.takeWhile isNameChar
      match name with
      | c :: _ => if c.isDigit then none else some (name, name.length + 1)
      | [] => none
  | _ => none

/-- The first argument counts the characters still covered by the reference just
replaced. -/
def envsubstAux (env : Env) : Nat → Text → Text
  | _, [] => []
  | skip + 1, _ :: cs => envsubstAux env skip cs
  | 0, c :: cs =>
      match reference (c :: cs) with
      | some (name, length) => env name ++ envsubstAux env (length - 1) cs
      | none => c :: envsubstAux env 0 cs

def envsubst (env : Env) (t : Text) : Text := envsubstAux env 0 t

/-! ## The script -/

/-- `kind ${MIRROR_PROTO}://${MIRROR_HOST}/${distro} ${suite} ${MIRROR_COMPONENTS}` -/
def entryLine (kind : Text) (env : Env) (distro suite : Text) : Text :=
  kind ++ ' ' :: env.mirrorProto ++ "://".toList ++ env.mirrorHost ++ '/' :: distro ++
    ' ' :: suite ++ ' ' :: env.mirrorComponents

def debLine (env : Env) (distro suite : Text) : Text := entryLine "deb".toList env distro suite

def debSrcLine (env : Env) (distro suite : Text) : Text :=
  entryLine "deb-src".toList env distro suite

def cleanLine (env : Env) (distro : Text) : Text :=
  "clean ".toList ++ env.mirrorProto ++ "://".toList ++ env.mirrorHost ++ '/' :: distro

def branchSuite (flavor branch : Text) : Text := flavor ++ '-' :: branch

def line (t : Text) : Text := t ++ ['\n']

def Env.distros (env : Env) : List Text := fields (env "MIRROR_DISTROS".toList)

def Env.flavors (env : Env) : List Text := fields (env "MIRROR_FLAVORS".toList)

def Env.branches (env : Env) : List Text := fields (env "MIRROR_BRANCHES".toList)

/-- Each flavor and then its branches. -/
def Env.suites (env : Env) : List Text :=
  env.flavors.flatMap fun flavor => flavor :: env.branches.map (branchSuite flavor)

def suiteText (env : Env) (source : Bool) (distro suite : Text) : Text :=
  line (debLine env distro suite) ++ if source then line (debSrcLine env distro suite) else []

def distroText (env : Env) (source : Bool) (distro : Text) : Text :=
  env.suites.flatMap (suiteText env source distro) ++ line (cleanLine env distro)

/-- The rendered template and the entries of every distro, with or without sources. -/
def listing (env : Env) (source : Bool) : Text :=
  envsubst env.exportDefaultarch template ++ env.distros.flatMap (distroText env source)

/-- Words that pathname expansion leaves alone, as it does words without one of
its characters. -/
structure Start.Unglobbed (x : Start) : Prop where
  glob_free : ∀ w, GlobFree w → x.glob w = [w]
  distros_free : GlobFree (x.env "MIRROR_DISTROS".toList)
  flavors_free : GlobFree (x.env "MIRROR_FLAVORS".toList)
  branches_free : GlobFree (x.env "MIRROR_BRANCHES".toList)
  source_free : GlobFree x.env.mirrorIncludeSource

section Words

variable {x : Start} (hx : x.Unglobbed)

include hx

theorem Start.Unglobbed.words {value : Text} (h : GlobFree value) : x.words value = fields value := by
  refine flatMap_eq_self fun w hw => hx.glob_free w ?_
  intro c hc
  exact h c (mem_of_mem_field hw hc)

end Words

/-! ## With and without sources -/

end AptMirror
