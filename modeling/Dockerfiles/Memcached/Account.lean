import Dockerfiles.Shell.Echo
import Dockerfiles.Shell.Script

/-! # The SASL account of the memcached image

`memcached/start` makes the account `admin` when no line of the user listing
contains that word. The password it stores has been through an unquoted
expansion and `echo`; the one it prints has not.
-/

namespace Memcached

open Shell

/-! ## The SASL database -/

structure Account where
  user : Text
  realm : Text
  password : Text
  deriving DecidableEq

def admin : Text := "admin".toList

/-- The line of `sasldblistusers2` for one entry. -/
def Account.listing (a : Account) : Text := a.user ++ '@' :: a.realm ++ ": userPassword".toList

/-- `sasldblistusers2 /etc/sasldb2 | grep "admin"`, the status of the pipeline. -/
def grepAdmin (db : List Account) : Bool := db.any fun a => decide (admin <:+: a.listing)

/-- `saslpasswd2 -a memcached -c admin` with the given standard input: the line it
reads becomes the password of `admin` in the realm of the host. -/
def saslpasswd2 (realm input : Text) (db : List Account) : List Account :=
  ⟨admin, realm, firstLine input⟩ :: db.filter fun a => !(a.user == admin && a.realm == realm)

/-! ## One start -/

inductive LogLine where
  | username (name : Text)
  | password (value : Text)
  deriving DecidableEq

structure State where
  sasldb : List Account
  log : List LogLine
  deriving DecidableEq

/-- The value of the last `PASSWORD=` line. -/
def State.lastPassword (s : State) : Option Text :=
  s.log.reverse.findSome? fun
    | .password value => some value
    | _ => none

/-- The environment of a start: the variable `PASSWORD` (`none` when unset), the
output of `pwgen`, the realm of the host, and the pathname expansion of a field
in the working directory. -/
structure Start where
  password : Option Text
  pwgen : Text
  realm : Text
  glob : Text → List Text

/-- ``PASSWORD=${PASSWORD:-`pwgen -s 20 1`}`` -/
def Start.secret (x : Start) : Text :=
  match x.password with
  | some (c :: cs) => c :: cs
  | _ => commandSubst x.pwgen

/-- `echo ${PASSWORD}`, the expansion unquoted. -/
def Start.piped (x : Start) : Text := echo ((fields x.secret).flatMap x.glob)

def start (s : State) (x : Start) : State :=
  if grepAdmin s.sasldb then s
  else
    { sasldb := saslpasswd2 x.realm x.piped s.sasldb
      log := s.log ++ [.username admin, .password x.secret] }

/-- The database holds an account named exactly `admin`, with the password of the
last `PASSWORD=` line. -/
def Provisioned (s : State) : Prop :=
  ∃ a ∈ s.sasldb, a.user = admin ∧ s.lastPassword = some a.password

/-! ## Later starts -/

theorem grepAdmin_saslpasswd2 (realm input : Text) (db : List Account) :
    grepAdmin (saslpasswd2 realm input db) = true := by
  have hl : admin <:+: (⟨admin, realm, firstLine input⟩ : Account).listing := by
    rw [Account.listing, List.append_assoc]
    exact (List.prefix_append _ _).isInfix
  simp [saslpasswd2, grepAdmin, hl]

/-- Once the word is in the listing, no start changes anything. -/
theorem start_of_grepAdmin {s : State} (h : grepAdmin s.sasldb = true) (x : Start) :
    start s x = s := by
  simp [start, h]

theorem grepAdmin_start (s : State) (x : Start) : grepAdmin (start s x).sasldb = true := by
  unfold start
  split
  next h => exact h
  next => exact grepAdmin_saslpasswd2 _ _ _

/-- The first start decides for all later ones. -/
theorem atEach_provisioned_iff (s : State) (x : Start) (xs : List Start) :
    AtEach start (fun s x => Provisioned (start s x)) s (x :: xs) ↔ Provisioned (start s x) := by
  have later : ∀ (ys : List Start) (t : State), grepAdmin t.sasldb = true → Provisioned t →
      AtEach start (fun s x => Provisioned (start s x)) t ys := by
    intro ys
    induction ys with
    | nil => intros; trivial
    | cons y ys ih =>
        intro t ht hp
        simp only [AtEach, start_of_grepAdmin ht]
        exact ⟨hp, ih t ht hp⟩
  constructor
  · exact fun h => h.1
  · exact fun h => ⟨h, later xs _ (grepAdmin_start s x) h⟩

/-! ## The first start -/

theorem provisioned_of_grepAdmin {db : List Account} (h0 : ∀ a ∈ db, a.user ≠ admin)
    (hg : grepAdmin db = true) (x : Start) : ¬ Provisioned (start ⟨db, []⟩ x) := by
  rw [start_of_grepAdmin hg]
  rintro ⟨a, ha, hu, _⟩
  exact h0 a ha hu

theorem provisioned_start_iff {db : List Account} (h0 : ∀ a ∈ db, a.user ≠ admin)
    (hg : grepAdmin db = false) (x : Start) :
    Provisioned (start ⟨db, []⟩ x) ↔ firstLine x.piped = x.secret := by
  have hs : start ⟨db, []⟩ x =
      ⟨saslpasswd2 x.realm x.piped db, [.username admin, .password x.secret]⟩ := by
    simp [start, hg]
  have hp : (start ⟨db, []⟩ x).lastPassword = some x.secret := by
    simp [hs, State.lastPassword]
  unfold Provisioned
  rw [hp, hs]
  constructor
  · rintro ⟨a, ha, hu, hpw⟩
    rcases List.mem_cons.mp ha with rfl | ha
    · exact (Option.some.inj hpw).symm
    · exact absurd hu (h0 a (List.mem_of_mem_filter ha))
  · intro h
    exact ⟨_, List.mem_cons_self, rfl, congrArg some h.symm⟩

/-! ## The stored password -/

/-- Pathname expansion leaves every field of the password alone. -/
def Start.Unglobbed (x : Start) : Prop := ∀ f ∈ fields x.secret, x.glob f = [f]

/-- The password is its fields with one space between each two, and the first of
them is no option of `echo`. -/
def EchoedLiterally (p : Text) : Prop :=
  unwords (fields p) = p ∧ ∀ w, (fields p).head? = some w → isEchoOption w = false

theorem piped_of_unglobbed {x : Start} (h : x.Unglobbed) : x.piped = echo (fields x.secret) := by
  rw [Start.piped, flatMap_eq_self h]

/-- Behind an option of `echo` less is left than the password itself. -/
theorem firstLine_echo_ne_of_option {p w : Text} {ws : List Text} (hf : fields p = w :: ws)
    (ho : isEchoOption w = true) : firstLine (echo (w :: ws)) ≠ p := by
  intro he
  have hle := length_firstLine_echo_le (w :: ws)
  rw [he] at hle
  have hargs : (echoArguments ⟨true, false⟩ (w :: ws)).2 =
      (echoArguments (w.tail.foldl EchoMode.letter ⟨true, false⟩) ws).2 := by
    simp [echoArguments, ho]
  have hrest : weight (echoArguments ⟨true, false⟩ (w :: ws)).2 ≤ weight ws := by
    rw [hargs]
    exact weight_echoArguments_le _ ws
  have hunwords := length_unwords_le_weight (echoArguments ⟨true, false⟩ (w :: ws)).2
  have hwhole := weight_fields_le p
  have hne : 0 < w.length := by
    rw [List.length_pos_iff]
    exact field_ne_nil (hf ▸ List.mem_cons_self)
  rw [hf] at hwhole
  simp only [weight, List.map_cons, List.sum_cons] at hwhole hrest hunwords
  omega

theorem firstLine_echo_fields_iff (p : Text) :
    firstLine (echo (fields p)) = p ↔ EchoedLiterally p := by
  have hclean : '\n' ∉ unwords (fields p) := by
    apply newline_not_mem_unwords
    intro w hw hc
    exact absurd (field_blank_free hw _ hc) (by decide)
  unfold EchoedLiterally
  cases hf : fields p with
  | nil => simp [echo, echoArguments, unwords, firstLine]
  | cons w ws =>
      rw [hf] at hclean
      cases ho : isEchoOption w with
      | true => simp [firstLine_echo_ne_of_option hf ho, ho]
      | false => simp [echo_of_head_plain ws ho, firstLine_append_newline [] hclean, ho]

/-- For a database without a user `admin` and a password that pathname expansion
leaves alone: at every start of every sequence the account `admin` exists with
the printed password exactly when no name or realm of the database contains the
word, and the first password is echoed as it is. -/
theorem admin_provisioned_iff (db : List Account) (h0 : ∀ a ∈ db, a.user ≠ admin) (x : Start)
    (xs : List Start) (hx : x.Unglobbed) :
    AtEach start (fun s x => Provisioned (start s x)) ⟨db, []⟩ (x :: xs) ↔
      grepAdmin db = false ∧ EchoedLiterally x.secret := by
  rw [atEach_provisioned_iff]
  cases hg : grepAdmin db with
  | true => simp [provisioned_of_grepAdmin h0 hg]
  | false =>
      rw [provisioned_start_iff h0 hg, piped_of_unglobbed hx, firstLine_echo_fields_iff]
      simp

/-- A start in a directory where no field matches a file name. -/
def Start.withPassword (password : String) : Start :=
  ⟨some password.toList, [], "host".toList, fun f => [f]⟩

theorem admin_provisioned_two_words :
    (Start.withPassword "sos 3cur3").Unglobbed ∧
    AtEach start (fun s x => Provisioned (start s x))
      ⟨[⟨"bob".toList, "host".toList, "pw".toList⟩], []⟩
      [Start.withPassword "sos 3cur3", Start.withPassword "other"] := by
  have hx : (Start.withPassword "sos 3cur3").Unglobbed := fun _ _ => rfl
  refine ⟨hx, (admin_provisioned_iff _ (by decide) _ _ hx).mpr ⟨by decide, by decide, ?_⟩⟩
  intro w hw
  obtain rfl : "sos".toList = w := Option.some.inj hw
  decide

/-- The password `a  b`, with two spaces, is stored with one. -/
theorem admin_password_differs :
    ¬ AtEach start (fun s x => Provisioned (start s x)) ⟨[], []⟩ [Start.withPassword "a  b"] := by
  rintro ⟨⟨a, ha, _, hp⟩, _⟩
  have hdb : (start ⟨[], []⟩ (Start.withPassword "a  b")).sasldb =
      [⟨admin, "host".toList, "a b".toList⟩] := by decide
  rw [hdb, List.mem_singleton] at ha
  subst ha
  exact absurd hp (by decide)

end Memcached
