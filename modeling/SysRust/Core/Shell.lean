import SysRust.Core.Rc.Lex

/-!
# Addresses in Shell Commands

`shell.rs` takes the argument of `ping` and its like for an IPv4 address if
`parse_ip` can read it, and for a host name otherwise. A string is the bytes
before its NUL, which is neither a digit nor a dot.

## Main definitions

* `parseIp`: Read an address, or return 0.
-/

namespace SysRust.Shell

open Rc

/-- The loop, with `n` numbers to come after this one. The loop over the
    digits of a number computes in `u32`, which wraps around. -/
def parseIpLoop (ip : BitVec 32) (n : Nat) (s : List UInt8) : BitVec 32 :=
  let ds := s.takeWhile isdigit
  let octet := ds.foldl (fun octet c => octet * 10 + BitVec.ofNat 32 (c.toNat - 0x30)) 0
  if ds = [] then 0
  else if octet > 255 then 0
  else
    match n, s.dropWhile isdigit with
    | 0, _ => (ip <<< 8) ||| octet
    | n + 1, 0x2E :: p => parseIpLoop ((ip <<< 8) ||| octet) n p
    | _, _ => 0

def parseIp (s : List UInt8) : BitVec 32 := parseIpLoop 0 3 s

end SysRust.Shell
