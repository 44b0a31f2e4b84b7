import Dockerfiles.Bind.Entrypoint
import Dockerfiles.Shell.Words

/-! # The command the BIND image ends in

The last lines of `bind/entrypoint.sh` look at the first argument. Options, and
what follows `named`, are joined into `EXTRA_ARGS` and expanded again without
quotes behind the script's own options; any other command is run as it is. The
arguments of `named` come through as they were given when each is one word that
pathname expansion leaves alone, and the first argument is not empty: the script
takes an empty one for none at all.
-/

namespace BindImage

open Shell

/-! ## The environment -/

/-- The characters that mean something else in a pattern of `[[`. -/
def isPatternChar (c : Char) : Bool := c == '*' || c == '?' || c == '[' || c == '\\' || c == '('

/-- What `which named` prints: an absolute path that is one word, and a pattern
that matches itself alone. -/
structure Program where
  path : Text
  absolute : path.head? = some '/'
  plain : path.all (fun c => !isBlank c && !isPatternChar c) = true

theorem Program.path_ne_nil (p : Program) : p.path ≠ [] := by
  intro h
  have ha := p.absolute
  simp [h] at ha

theorem Program.keeps (p : Program) (g : Globbing) : g.Keeps p.path := by
  have plain : ∀ c ∈ p.path, isBlank c = false ∧ isPatternChar c = false := by
    intro c hc
    simpa using List.all_eq_true.mp p.plain c hc
  refine Globbing.keeps_of_literal ⟨p.path_ne_nil, fun c hc => (plain c hc).1⟩ ?_ ?_
  · intro c hc
    have hp := (plain c hc).2
    simp only [isPatternChar, Bool.or_eq_false_iff, beq_eq_false_iff_ne] at hp
    exact ⟨hp.1.1.1.1, hp.1.1.1.2, hp.1.1.2⟩
  · intro hc
    exact absurd (plain _ hc).2 (by decide)

/-- What the last lines of the script read. `EXTRA_ARGS` may come with the
environment; it is empty when it does not. -/
structure Environment where
  config : Config
  extraArgs : Text
  program : Program
  glob : Globbing

/-! ## The script -/

/-- `${1}`, empty when there is no argument. -/
def first (args : List Text) : Text := args.headD []

/-- `[[ ${1:0:1} = '-' ]]` -/
def IsOption (args : List Text) : Prop := (first args).take 1 = ['-']

instance (args : List Text) : Decidable (IsOption args) :=
  inferInstanceAs (Decidable ((first args).take 1 = ['-']))

/-- `[[ ${1} == named || ${1} == $(which named) ]]` -/
def IsNamed (x : Environment) (args : List Text) : Prop :=
  first args = "named".toList ∨ first args = x.program.path

instance (x : Environment) (args : List Text) : Decidable (IsNamed x args) :=
  inferInstanceAs (Decidable (first args = "named".toList ∨ first args = x.program.path))

/-- The positional parameters and `EXTRA_ARGS` behind the first conditional. -/
def passArguments (x : Environment) (args : List Text) : List Text × Text :=
  if IsOption args then ([], unwords args)
  else if IsNamed x args then ([], unwords (args.drop 1))
  else (args, x.extraArgs)

/-- `$(which named) -u ${BIND_USER} -f -g -4 ${EXTRA_ARGS}` -/
def namedCommand (x : Environment) (extraArgs : Text) : List Text :=
  x.glob.words x.program.path ++ "-u".toList :: x.glob.words x.config.user ++
    ["-f".toList, "-g".toList, "-4".toList] ++ x.glob.words extraArgs

/-- The argument vector of the process the script ends in. -/
def launch (x : Environment) (args : List Text) : List Text :=
  let (params, extraArgs) := passArguments x args
  -- default behaviour is to launch named
  if first params = [] then namedCommand x extraArgs else params

/-! ## Passing arguments through -/

/-- The script's own part of the command. -/
def ownArguments (x : Environment) : List Text :=
  [x.program.path, "-u".toList, x.config.user, "-f".toList, "-g".toList, "-4".toList]

/-- The command with every argument passed through as it is. -/
def passedThrough (x : Environment) (args : List Text) : List Text :=
  if IsOption args then ownArguments x ++ args
  else if IsNamed x args then ownArguments x ++ args.drop 1
  else args

/-- The arguments that go to `named`. -/
def handedOn (x : Environment) (args : List Text) : List Text :=
  if IsOption args then args else if IsNamed x args then args.drop 1 else []

/-- There is something in the first argument, and each argument for `named` is
one word that pathname expansion leaves alone. -/
structure Passable (x : Environment) (args : List Text) : Prop where
  first_ne_nil : first args ≠ []
  kept : ∀ a ∈ handedOn x args, x.glob.Keeps a

section Cases

variable {x : Environment} {args : List Text}

theorem launch_to_named (h : IsOption args ∨ IsNamed x args) :
    launch x args = namedCommand x (unwords (handedOn x args)) ∧
      passedThrough x args = ownArguments x ++ handedOn x args := by
  by_cases ho : IsOption args
  · simp [launch, passArguments, passedThrough, handedOn, ho, first]
  · have hn : IsNamed x args := h.resolve_left ho
    simp [launch, passArguments, passedThrough, handedOn, ho, hn, first]

theorem launch_other (ho : ¬ IsOption args) (hn : ¬ IsNamed x args) :
    launch x args = (if first args = [] then namedCommand x x.extraArgs else args) ∧
      passedThrough x args = args := by
  simp [launch, passArguments, passedThrough, ho, hn]

theorem other_of_first_empty (h : first args = []) : ¬ IsOption args ∧ ¬ IsNamed x args := by
  refine ⟨by simp [IsOption, h], ?_⟩
  rintro (hn | hn)
  · simp [h] at hn
  · exact x.program.path_ne_nil (hn.symm.trans h)

end Cases

section User

variable {x : Environment} (hu : x.glob.words x.config.user = [x.config.user])

include hu

theorem namedCommand_eq (extraArgs : Text) :
    namedCommand x extraArgs = ownArguments x ++ x.glob.words extraArgs := by
  simp [namedCommand, ownArguments, hu, (x.program.keeps x.glob).words_eq]

theorem namedCommand_unwords_iff (ws : List Text) :
    namedCommand x (unwords ws) = ownArguments x ++ ws ↔ x.glob.words (unwords ws) = ws := by
  rw [namedCommand_eq hu, List.append_cancel_left_eq]

/-- An empty first argument starts `named`, whatever comes after it. -/
theorem launch_ne_of_first_empty {args : List Text} (h : first args = []) :
    launch x args ≠ passedThrough x args := by
  obtain ⟨ho, hn⟩ := other_of_first_empty h
  obtain ⟨hl, hp⟩ := launch_other ho hn
  rw [hl, hp, if_pos h, namedCommand_eq hu]
  rintro rfl
  exact x.program.path_ne_nil h

/-- For every argument vector: what the script ends in is the command with the
arguments passed through, when they are passable; and only then, unless one of
the fields they are split into matches a file with white space in its name. -/
theorem launch_passes_arguments (args : List Text) :
    (Passable x args → launch x args = passedThrough x args) ∧
      (x.glob.Tidy (handedOn x args) → launch x args = passedThrough x args →
        Passable x args) := by
  by_cases named : IsOption args ∨ IsNamed x args
  · obtain ⟨hl, hp⟩ := launch_to_named named
    rw [hl, hp, namedCommand_unwords_iff hu]
    refine ⟨fun h => Globbing.words_unwords_of_keeps h.kept, ?_⟩
    intro tidy h
    refine ⟨fun he => ?_, Globbing.keeps_of_words_unwords tidy h⟩
    obtain ⟨ho, hn⟩ := other_of_first_empty (x := x) he
    exact named.elim ho hn
  · obtain ⟨ho, hn⟩ := not_or.mp named
    obtain ⟨hl, hp⟩ := launch_other ho hn
    have none : handedOn x args = [] := by simp [handedOn, ho, hn]
    refine ⟨fun h => by rw [hl, hp, if_neg h.first_ne_nil], ?_⟩
    intro _ h
    exact ⟨fun he => launch_ne_of_first_empty hu he h, by simp [none]⟩

end User

/-! ## The image -/

/-- A working directory in which no pattern matches a file. -/
def noMatches : Globbing where
  expand w := [w]
  literal _ _ _ := rfl
  nonempty _ := by simp

/-- The environment of the image, in which `named` is found in `/usr/sbin`. -/
def imageEnvironment : Environment where
  config := .default
  extraArgs := []
  program := ⟨"/usr/sbin/named".toList, rfl, by decide⟩
  glob := noMatches

-- the command of the image's own `CMD`
example : launch imageEnvironment ["/usr/sbin/named".toList, "-f".toList, "-g".toList] =
    ownArguments imageEnvironment ++ ["-f".toList, "-g".toList] := by decide

/-- `-d 3` -/
def debugArguments : List Text := ["-d".toList, "3".toList]

theorem launch_passes_debugArguments :
    imageEnvironment.glob.words imageEnvironment.config.user = [imageEnvironment.config.user] ∧
      Passable imageEnvironment debugArguments ∧
      imageEnvironment.glob.Tidy (handedOn imageEnvironment debugArguments) ∧
      launch imageEnvironment debugArguments = passedThrough imageEnvironment debugArguments := by
  have hu : imageEnvironment.glob.words imageEnvironment.config.user =
      [imageEnvironment.config.user] := by decide
  have words : ∀ a ∈ handedOn imageEnvironment debugArguments, Word a :=
    List.forall_mem_cons.mpr ⟨by decide, List.forall_mem_cons.mpr ⟨by decide, by simp⟩⟩
  have passable : Passable imageEnvironment debugArguments :=
    ⟨by decide, fun a ha => ⟨words a ha, rfl⟩⟩
  refine ⟨hu, passable, ?_, (launch_passes_arguments hu _).1 passable⟩
  intro a ha f hf v hv
  rw [(words a ha).fields_eq, List.mem_singleton] at hf
  rw [List.mem_singleton.mp hv, hf]
  exact words a ha

/-- `-c` with a path that has a space in it: `named` is given three arguments. -/
def spacedArguments : List Text := ["-c".toList, "/data/my conf/named.conf".toList]

theorem launch_splits_spacedArguments :
    launch imageEnvironment spacedArguments =
        ownArguments imageEnvironment ++ ["-c".toList, "/data/my".toList, "conf/named.conf".toList] ∧
      launch imageEnvironment spacedArguments ≠ passedThrough imageEnvironment spacedArguments := by
  decide

/-- A working directory with two files, one called `???* ?` and one a space: what
the patterns `???*` and `?` match there. -/
def spacedDirectory : Globbing where
  expand w :=
    if w = "???*".toList then ["???* ?".toList] else if w = "?".toList then [" ".toList] else [w]
  literal w hw _ := by
    have free : '?' ∉ w := fun hm => (hw '?' hm).2.1 rfl
    rw [if_neg, if_neg]
    · rintro rfl
      exact free (by decide)
    · rintro rfl
      exact free (by decide)
  nonempty w := by split_ifs <;> simp

/-- Where a name has white space in it, arguments can come through by accident:
the first is split, and each part of it matches one of the two. -/
theorem passed_by_accident :
    let x : Environment := { imageEnvironment with glob := spacedDirectory }
    let args : List Text := ["named".toList, "???* ?".toList, " ".toList]
    launch x args = passedThrough x args ∧ ¬ Passable x args := by
  refine ⟨by decide, fun h => ?_⟩
  have word : Word " ".toList := (h.kept _ (by decide)).1
  exact absurd word (by decide)

end BindImage
