import Dockerfiles.Nginx.SocketText
import Dockerfiles.Numeral.Prefix

/-! # Networks

`ngx_ptocidr` reads a network, `ngx_cidr_match` asks whether an address is in one of
them, and `geoip2_proxy` puts networks on the list of trusted proxies. A network is
meant to be the addresses that begin with the same bits as the written one. That is
what is matched, with one exception: an IPv6 address that carries an IPv4 address is
compared as the latter, so that no IPv6 network has it.
-/

namespace Nginx

inductive Rc where
  | ok
  | error
  | declined
  | done
deriving Repr, DecidableEq

inductive Cidr where
  | inet (addr mask : BitVec 32)
  | inet6 (addr mask : In6Addr)
  | unix
deriving DecidableEq

/-! ## Reading a network -/

def isV4Mapped (addr : In6Addr) : Prop :=
  addr.bytes.take 12 = List.replicate 10 0 ++ [0xff, 0xff]

instance (addr : In6Addr) : Decidable (isV4Mapped addr) := by
  unfold isV4Mapped
  infer_instance

/-- The family and the address `ngx_cidr_match` compares. -/
def Sockaddr.effective : Sockaddr → Sockaddr
  | .inet6 addr port =>
      if isV4Mapped addr then .inet (quad (tailQuad addr.bytes)) port else .inet6 addr port
  | sa => sa

def match6Loop : Bytes → Bytes → Bytes → Bool
  | a :: inaddr6, m :: mask, b :: addr => if a &&& m ≠ b then false else match6Loop inaddr6 mask addr
  | _, _, _ => true

/-- The body of the loop of `ngx_cidr_match`: whether it returns `NGX_OK` here. -/
def cidrMatches : Sockaddr → Cidr → Bool
  | .inet inaddr _, .inet addr mask => inaddr &&& mask = addr
  | .inet6 inaddr6 _, .inet6 addr mask => match6Loop inaddr6.bytes mask.bytes addr.bytes
  | .unix _, .unix => true
  | _, _ => false

def cidrMatch (sa : Sockaddr) (cidrs : List Cidr) : Rc :=
  if cidrs.any (cidrMatches sa.effective) then .ok else .declined

/-! ## What a network is for -/

def bitsOf (bytes : Bytes) : List Bool := bytes.flatMap fun b => Numeral.msbs b.toBitVec

def Sockaddr.bits : Sockaddr → List Bool
  | .inet addr _ => Numeral.msbs addr
  | .inet6 addr _ => bitsOf addr.bytes
  | .unix _ => []

/-- A text up to the zero byte that ends it. -/
def cString (text : Bytes) : Bytes := text.takeWhile (· ≠ 0)

end Nginx
