import Mathlib.Tactic.Common

/-! Internet addresses as `std::net` has them. -/
namespace Hush.Lib

inductive IpAddr
  | v4 (ip : BitVec 32)
  | v6 (ip : BitVec 128)
  deriving DecidableEq, Repr

namespace IpAddr

/-- `Ipv4Addr::to_ipv6_mapped`: `::ffff:a.b.c.d`. -/
def toIpv6Mapped (ip : BitVec 32) : BitVec 128 := (0xffff#16 ++ ip).setWidth 128

/-- `Ipv6Addr::to_ipv4_mapped`. -/
def toIpv4Mapped (ip : BitVec 128) : Option (BitVec 32) :=
  if ip >>> 32 = 0xffff then some (ip.setWidth 32) else none

end IpAddr

/-- An IPv6 address has a flow label and a scope as well. -/
inductive SocketAddr
  | v4 (ip : BitVec 32) (port : UInt16)
  | v6 (ip : BitVec 128) (port : UInt16) (flowinfo scopeId : UInt32)
  deriving DecidableEq, Repr

namespace SocketAddr

/-- `SocketAddr::new`. -/
def new : IpAddr → UInt16 → SocketAddr
  | .v4 ip, port => .v4 ip port
  | .v6 ip, port => .v6 ip port 0 0

def ip : SocketAddr → IpAddr
  | .v4 ip _ => .v4 ip
  | .v6 ip _ _ _ => .v6 ip

def port : SocketAddr → UInt16
  | .v4 _ port => port
  | .v6 _ port _ _ => port

def isIpv6 : SocketAddr → Bool
  | .v4 _ _ => false
  | .v6 _ _ _ _ => true

end SocketAddr

example : IpAddr.toIpv4Mapped (IpAddr.toIpv6Mapped 0x7f000001) = some 0x7f000001 := by decide

end Hush.Lib
