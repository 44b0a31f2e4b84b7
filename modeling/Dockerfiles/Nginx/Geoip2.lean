import Dockerfiles.Nginx.Forwarded

/-! # The GeoIP2 module

`ngx_http_geoip2_module.c`: the variables of a request are looked up in a MaxMind
database for the address of the client. A database keeps the last address it was
asked for and the answer, and all its variables share them. The library behind the
database is a parameter.
-/

namespace Nginx

/-! ## Values -/

/-- The value of an entry, by its type. The texts of the two floating types are the
ones `ngx_sprintf` makes of them. -/
inductive EntryData where
  | boolean (b : Bool)
  | utf8String (s : Bytes)
  | bytes (s : Bytes)
  | float (text : Bytes)
  | double (text : Bytes)
  | uint16 (n : BitVec 16)
  | uint32 (n : BitVec 32)
  | int32 (n : BitVec 32)
  | uint64 (n : BitVec 64)
  | uint128 (n : BitVec 128)
  | other

def EntryData.items : EntryData → Option (List Item)
  | .boolean b => some [.signed 32 0 (if b then 1 else 0)]
  | .uint16 n => some [.unsigned 32 0 .no n.toNat]
  | .uint32 n => some [.unsigned 32 0 .no n.toNat]
  | .int32 n => some [.signed 32 0 n.toInt]
  | .uint64 n => some [.unsigned 32 0 .no n.toNat]
  | .uint128 n =>
      some [.char 48, .char 120, .unsigned 48 16 .lower (n.toNat / 2 ^ 64),
        .unsigned 48 16 .lower (n.toNat % 2 ^ 64)]
  | _ => none

/-- The text of a value, or none for a type the module does not know. -/
def EntryData.text : EntryData → Option Bytes
  | .utf8String s => some s
  | .bytes s => some s
  | .float text => some text
  | .double text => some text
  | data => data.items.map sprintf

/-- `NGX_OFF_T_LEN`, the size of the buffer in `FORMAT`. -/
def offTLen : Nat := 20

theorem length_sprintfNum (ui64 : Nat) (zero : UInt8) (hexadecimal : Hexadecimal) (width : Nat) :
    (sprintfNum ui64 zero hexadecimal width).length =
      max width (numDigits ui64 hexadecimal).length := by
  simp only [sprintfNum, List.length_append, List.length_replicate, List.length_map]
  omega

theorem length_numDigits_no {ui64 k : Nat} (h : ui64 < 10 ^ (k + 1)) :
    (numDigits ui64 .no).length ≤ k + 1 := by
  rw [numDigits]
  split
  · have hmod : ui64 % 2 ^ 32 < 10 ^ (k + 1) := Nat.lt_of_le_of_lt (Nat.mod_le _ _) h
    simpa using Numeral.length_pushDigits_le hmod int64Len []
  · simpa using Numeral.length_pushDigits_le h int64Len []

theorem length_numDigits_lower {ui64 : Nat} (h : ui64 < 2 ^ 64) :
    (numDigits ui64 .lower).length ≤ 16 := by
  simpa [numDigits] using
    @Numeral.length_pushDigits_le 16 15 ui64 (by omega) int64Len []

theorem length_signed_le {i64 : Int} {k : Nat} (h : i64.natAbs < 10 ^ (k + 1)) :
    (Item.signed 32 0 i64).text.length ≤ k + 2 := by
  simp only [Item.text]
  split
  · have hlen := @length_numDigits_no (-i64).toNat k (by omega)
    simp only [List.length_cons, length_sprintfNum]
    omega
  · have hlen := @length_numDigits_no i64.toNat k (by omega)
    simp only [length_sprintfNum]
    omega

theorem length_unsigned_le {ui64 k : Nat} (h : ui64 < 10 ^ (k + 1)) :
    (Item.unsigned 32 0 .no ui64).text.length ≤ k + 1 := by
  have hlen := length_numDigits_no h
  simp only [Item.text, length_sprintfNum]
  omega

/-- Of the integer types, the one that does not fit the buffer it is written to is the
widest, and it never does. -/
theorem length_items_le_iff (data : EntryData) (items : List Item)
    (hitems : data.items = some items) :
    (sprintf items).length ≤ offTLen ↔ ∀ n, data ≠ .uint128 n := by
  have hone : ∀ item : Item, (sprintf [item]).length = item.text.length := by
    intro item
    simp [sprintf]
  cases data with
  | boolean b =>
      cases hitems
      refine iff_of_true ?_ (by simp)
      rw [hone]
      exact Nat.le_trans (length_signed_le (k := 0) (by cases b <;> decide)) (by decide)
  | uint16 n =>
      cases hitems
      have hn := n.isLt
      refine iff_of_true ?_ (by simp)
      rw [hone]
      exact Nat.le_trans (length_unsigned_le (k := 4) (by omega)) (by decide)
  | uint32 n =>
      cases hitems
      have hn := n.isLt
      refine iff_of_true ?_ (by simp)
      rw [hone]
      exact Nat.le_trans (length_unsigned_le (k := 9) (by omega)) (by decide)
  | int32 n =>
      cases hitems
      have hlow := BitVec.le_toInt n
      have hhigh := BitVec.toInt_lt (x := n)
      refine iff_of_true ?_ (by simp)
      rw [hone]
      exact Nat.le_trans (length_signed_le (k := 9) (by omega)) (by decide)
  | uint64 n =>
      cases hitems
      have hn := n.isLt
      refine iff_of_true ?_ (by simp)
      rw [hone]
      exact Nat.le_trans (length_unsigned_le (k := 19) (by omega)) (by decide)
  | uint128 n =>
      cases hitems
      have hn := n.isLt
      have hhigh := @length_numDigits_lower (n.toNat / 2 ^ 64) (by omega)
      have hlow := @length_numDigits_lower (n.toNat % 2 ^ 64) (by omega)
      refine iff_of_false ?_ (by simp)
      simp only [sprintf, List.flatMap_cons, List.flatMap_nil, Item.text, List.length_append,
        List.length_cons, List.length_nil, length_sprintfNum, offTLen]
      omega
  | utf8String s => cases hitems
  | bytes s => cases hitems
  | float text => cases hitems
  | double text => cases hitems
  | other => cases hitems

/-- The largest 64-bit number has twenty digits. -/
theorem length_items_le_iff_uint64 :
    (sprintf [.unsigned 32 0 .no 18446744073709551615]).length ≤ offTLen ↔
      ∀ n, EntryData.uint64 (BitVec.allOnes 64) ≠ .uint128 n :=
  length_items_le_iff (.uint64 (BitVec.allOnes 64)) _ rfl

/-! ## A variable of a request -/

/-- `MMDB_lookup_result_s`, as far as the module reads it. -/
structure LookupResult (Entry : Type) where
  foundEntry : Bool
  entry : Entry

/-- The two functions of the library that answer: `MMDB_lookup_sockaddr`, with whether
it reports `MMDB_SUCCESS`, and `MMDB_aget_value`, with `has_data` and the data when it
returns `MMDB_SUCCESS`. -/
structure Mmdb (Entry : Type) where
  lookupSockaddr : Sockaddr → LookupResult Entry × Bool
  agetValue : Entry → List Bytes → Option (Bool × EntryData)

/-- The part of `ngx_http_geoip2_db_t` that changes. -/
structure Database (Entry : Type) where
  address : In6Addr
  result : LookupResult Entry

structure Ctx where
  lookup : List Bytes
  defaultValue : Bytes

structure Conf where
  proxies : Option (List Cidr)
  proxyRecursive : Bool

structure Request where
  sockaddr : Sockaddr
  xForwardedFor : List Header

inductive Value where
  | found (data : Bytes)
  | notFound
deriving DecidableEq

def clientAddr (conf : Conf) (r : Request) : Sockaddr :=
  match r.xForwardedFor, conf.proxies with
  | _ :: _, some proxies =>
      (getForwardedAddr proxies conf.proxyRecursive r.sockaddr r.xForwardedFor).2
  | _, _ => r.sockaddr

/-- The sixteen bytes an address is kept by: an IPv4 address stands after twelve zero
bytes. -/
def addressKey : Sockaddr → Option In6Addr
  | .inet addr _ =>
      some ⟨List.replicate 12 0 ++ [octet addr 0, octet addr 1, octet addr 2, octet addr 3], by simp⟩
  | .inet6 addr _ => some addr
  | .unix _ => none

/-- The label `not_found`. -/
def Ctx.orDefault (ctx : Ctx) : Value :=
  if ctx.defaultValue ≠ [] then .found ctx.defaultValue else .notFound

/-- The database of a block that was just configured. The result is not set. -/
def Database.init {Entry : Type} (unset : LookupResult Entry) : Database Entry :=
  { address := ⟨List.replicate 16 0, by simp⟩, result := unset }

section Variables

variable {Entry : Type} (mmdb : Mmdb Entry)

def readResult (ctx : Ctx) (result : LookupResult Entry) : Value :=
  if ¬ result.foundEntry then ctx.orDefault
  else
    match mmdb.agetValue result.entry ctx.lookup with
    | none => ctx.orDefault
    | some (hasData, data) =>
        if ¬ hasData then ctx.orDefault
        else
          match data.text with
          | some text => .found text
          | none => ctx.orDefault

def geoip2Variable (conf : Conf) (ctx : Ctx) (database : Database Entry) (r : Request) :
    Value × Database Entry :=
  let addr := clientAddr conf r
  match addressKey addr with
  | none => (ctx.orDefault, database)
  | some address =>
      if address ≠ database.address then
        let (result, success) := mmdb.lookupSockaddr addr
        let database := { address, result }
        if ¬ success then (ctx.orDefault, database)
        else (readResult mmdb ctx database.result, database)
      else (readResult mmdb ctx database.result, database)

/-- Variables of one database, asked for one after the other. -/
def runVariables (conf : Conf) (database : Database Entry) : List (Ctx × Request) → List Value
  | [] => []
  | (ctx, r) :: steps =>
      let (value, database) := geoip2Variable mmdb conf ctx database r
      value :: runVariables conf database steps

/-! ## What a variable is for -/

/-- The value of a variable for an address, looked up for itself. -/
def valueFor (ctx : Ctx) (addr : Sockaddr) : Value :=
  match addressKey addr with
  | none => ctx.orDefault
  | some _ =>
      if (mmdb.lookupSockaddr addr).2 then readResult mmdb ctx (mmdb.lookupSockaddr addr).1
      else ctx.orDefault

/-- A lookup that fails has found nothing. -/
def FailsEmpty : Prop :=
  ∀ addr, (mmdb.lookupSockaddr addr).2 = false → (mmdb.lookupSockaddr addr).1.foundEntry = false

/-- Addresses that are kept by the same bytes have the same values. -/
def KeyDetermined : Prop :=
  ∀ ctx a b, addressKey a = addressKey b → valueFor mmdb ctx a = valueFor mmdb ctx b

/-- The first internet address asked for is not the one a database starts with. -/
def StartsElsewhere (conf : Conf) : List (Ctx × Request) → Prop
  | [] => True
  | (_, r) :: steps =>
      match addressKey (clientAddr conf r) with
      | none => StartsElsewhere conf steps
      | some address => address.bytes ≠ List.replicate 16 0

/-- The result kept is that of some address with the bytes kept. -/
def Database.Faithful (database : Database Entry) : Prop :=
  ∃ addr, addressKey addr = some database.address ∧
    database.result = (mmdb.lookupSockaddr addr).1

variable {mmdb}

theorem valueFor_eq_readResult (hfails : FailsEmpty mmdb) (ctx : Ctx) {addr : Sockaddr}
    {address : In6Addr} (haddr : addressKey addr = some address) :
    valueFor mmdb ctx addr = readResult mmdb ctx (mmdb.lookupSockaddr addr).1 := by
  rw [valueFor, haddr]
  dsimp only
  split
  · rfl
  · next hfailed =>
      have hempty := hfails addr (by simpa using hfailed)
      simp [readResult, hempty]

/-- Another address than the one kept is looked up and kept. -/
theorem geoip2Variable_of_ne (conf : Conf) (ctx : Ctx) {database : Database Entry} {r : Request}
    {address : In6Addr} (hkey : addressKey (clientAddr conf r) = some address)
    (hne : address ≠ database.address) :
    geoip2Variable mmdb conf ctx database r =
      (valueFor mmdb ctx (clientAddr conf r),
        { address, result := (mmdb.lookupSockaddr (clientAddr conf r)).1 }) := by
  simp only [geoip2Variable, valueFor, hkey, if_pos hne]
  cases (mmdb.lookupSockaddr (clientAddr conf r)).2 <;> simp

theorem geoip2Variable_of_eq (conf : Conf) (ctx : Ctx) {database : Database Entry} {r : Request}
    (hkey : addressKey (clientAddr conf r) = some database.address) :
    geoip2Variable mmdb conf ctx database r =
      (readResult mmdb ctx database.result, database) := by
  simp [geoip2Variable, hkey]

/-- A step from a faithful database: the value is that of an address with the same
bytes, and the database stays faithful. -/
theorem geoip2Variable_of_faithful (hfails : FailsEmpty mmdb) (conf : Conf) (ctx : Ctx)
    {database : Database Entry} (hdb : database.Faithful mmdb) (r : Request) :
    (∃ addr, addressKey addr = addressKey (clientAddr conf r) ∧
      (geoip2Variable mmdb conf ctx database r).1 = valueFor mmdb ctx addr) ∧
      (geoip2Variable mmdb conf ctx database r).2.Faithful mmdb := by
  cases hkey : addressKey (clientAddr conf r) with
  | none =>
      rw [geoip2Variable, hkey]
      exact ⟨⟨clientAddr conf r, hkey, by simp [valueFor, hkey]⟩, hdb⟩
  | some address =>
      by_cases hne : address = database.address
      · subst hne
        obtain ⟨addr, haddr, hresult⟩ := hdb
        rw [geoip2Variable_of_eq conf ctx hkey]
        refine ⟨⟨addr, haddr, ?_⟩, ⟨addr, haddr, hresult⟩⟩
        rw [valueFor_eq_readResult hfails ctx haddr, ← hresult]
      · rw [geoip2Variable_of_ne conf ctx hkey hne]
        exact ⟨⟨clientAddr conf r, hkey, rfl⟩, ⟨clientAddr conf r, hkey, rfl⟩⟩

theorem Database.ne_init {address : In6Addr} (hne : address.bytes ≠ List.replicate 16 0)
    (unset : LookupResult Entry) : address ≠ (Database.init unset).address :=
  fun h => hne (congrArg In6Addr.bytes h)

theorem runVariables_cons (conf : Conf) (database : Database Entry) (step : Ctx × Request)
    (steps : List (Ctx × Request)) :
    runVariables mmdb conf database (step :: steps) =
      (geoip2Variable mmdb conf step.1 database step.2).1 ::
        runVariables mmdb conf (geoip2Variable mmdb conf step.1 database step.2).2 steps := rfl

theorem runVariables_of_faithful (hfails : FailsEmpty mmdb) (hkey : KeyDetermined mmdb)
    (conf : Conf) {database : Database Entry} (hdb : database.Faithful mmdb)
    (steps : List (Ctx × Request)) :
    runVariables mmdb conf database steps =
      steps.map fun step => valueFor mmdb step.1 (clientAddr conf step.2) := by
  induction steps generalizing database with
  | nil => rfl
  | cons step steps ih =>
      obtain ⟨⟨addr, haddr, hvalue⟩, hnext⟩ :=
        geoip2Variable_of_faithful hfails conf step.1 hdb step.2
      rw [runVariables_cons, List.map_cons, ih hnext, hvalue, hkey step.1 addr _ haddr]

theorem runVariables_of_init (hfails : FailsEmpty mmdb) (hkey : KeyDetermined mmdb)
    (conf : Conf) (unset : LookupResult Entry) {steps : List (Ctx × Request)}
    (hstarts : StartsElsewhere conf steps) :
    runVariables mmdb conf (.init unset) steps =
      steps.map fun step => valueFor mmdb step.1 (clientAddr conf step.2) := by
  induction steps with
  | nil => rfl
  | cons step steps ih =>
      obtain ⟨ctx, r⟩ := step
      rw [StartsElsewhere] at hstarts
      cases haddr : addressKey (clientAddr conf r) with
      | none =>
          simp only [haddr] at hstarts
          simp only [runVariables, geoip2Variable, haddr, List.map_cons, ih hstarts, valueFor]
      | some address =>
          simp only [haddr] at hstarts
          have hstep := @geoip2Variable_of_ne _ mmdb conf ctx _ r address haddr
            (Database.ne_init hstarts unset)
          rw [runVariables_cons, List.map_cons, hstep, runVariables_of_faithful hfails hkey conf]
          exact ⟨clientAddr conf r, haddr, rfl⟩

/-- An address with other bytes than given ones and than those a database starts
with. -/
theorem exists_other_address (address : In6Addr) :
    ∃ other : In6Addr, other ≠ address ∧ other.bytes ≠ List.replicate 16 0 := by
  have hones : List.replicate 16 (1 : UInt8) ≠ List.replicate 16 0 := by decide
  have htwos : List.replicate 16 (2 : UInt8) ≠ List.replicate 16 0 := by decide
  by_cases h : address.bytes = List.replicate 16 1
  · refine ⟨⟨List.replicate 16 2, by simp⟩, ?_, htwos⟩
    intro heq
    rw [← heq] at h
    exact absurd h (by decide)
  · refine ⟨⟨List.replicate 16 1, by simp⟩, ?_, hones⟩
    intro heq
    exact h (heq ▸ rfl)

/-- What is kept between requests never shows, in any run over any configuration,
exactly when addresses that are kept by the same bytes have the same values. -/
theorem runVariables_eq_valueFor_iff (hfails : FailsEmpty mmdb) (conf : Conf)
    (unset : LookupResult Entry) :
    (∀ steps : List (Ctx × Request), StartsElsewhere conf steps →
        runVariables mmdb conf (.init unset) steps =
          steps.map fun step => valueFor mmdb step.1 (clientAddr conf step.2)) ↔
      KeyDetermined mmdb := by
  constructor
  · intro hrun ctx a b hab
    cases hb : addressKey b with
    | none => simp [valueFor, hab, hb]
    | some address =>
        obtain ⟨other, hother, hne⟩ := exists_other_address address
        have hdirect : ∀ sa, clientAddr conf ⟨sa, []⟩ = sa := fun sa => rfl
        have hsteps := hrun [(ctx, ⟨.inet6 other 0, []⟩), (ctx, ⟨a, []⟩), (ctx, ⟨b, []⟩)]
          (by simp only [StartsElsewhere, hdirect, addressKey]; exact hne)
        -- the first step moves the database elsewhere, the second looks `a` up, the
        -- third finds the bytes of `b` kept
        have hfirst := @geoip2Variable_of_ne _ mmdb conf ctx _ ⟨.inet6 other 0, []⟩ other rfl
          (Database.ne_init hne unset)
        have hsecond := @geoip2Variable_of_ne _ mmdb conf ctx
          { address := other, result := (mmdb.lookupSockaddr (.inet6 other 0)).1 } ⟨a, []⟩ address
          (hab.trans hb) (fun h => hother h.symm)
        have hthird := @geoip2Variable_of_eq _ mmdb conf ctx
          { address, result := (mmdb.lookupSockaddr a).1 } ⟨b, []⟩ hb
        simp only [hdirect] at hfirst hsecond
        simp only [runVariables_cons, hfirst, hsecond, hthird, List.map_cons, List.cons.injEq,
          hdirect] at hsteps
        rw [valueFor_eq_readResult hfails ctx (hab.trans hb)]
        exact hsteps.2.2.1
  · intro hkey steps hstarts
    exact runVariables_of_init hfails hkey conf unset hstarts

end Variables

/-- A database with one text for all internet addresses, and no proxies. -/
theorem runVariables_eq_valueFor_iff_constant :
    let mmdb : Mmdb Unit :=
      { lookupSockaddr := fun addr => (⟨(addressKey addr).isSome, ()⟩, (addressKey addr).isSome)
        agetValue := fun _ _ => some (true, .utf8String [85, 83]) }
    (∀ steps : List (Ctx × Request), StartsElsewhere ⟨none, false⟩ steps →
        runVariables mmdb ⟨none, false⟩ (.init ⟨true, ()⟩) steps =
          steps.map fun step => valueFor mmdb step.1 (clientAddr ⟨none, false⟩ step.2)) ↔
      KeyDetermined mmdb :=
  runVariables_eq_valueFor_iff (fun _ h => h) ⟨none, false⟩ ⟨true, ()⟩

end Nginx
