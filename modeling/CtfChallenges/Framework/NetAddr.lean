import Mathlib.Data.List.Basic

/-!
# Addresses in the Go package `net`

Address strings, the literals in them and networks, on bytes. An IP address is a byte slice: four
bytes, or sixteen of which the last four can be one of the old form.
-/

namespace CtfChallenges.Framework.NetAddr

abbrev Bytes := List UInt8

abbrev IP := Bytes

def IPv4len : Nat := 4
def IPv6len : Nat := 16

def v4InV6Prefix : Bytes := List.replicate 10 0 ++ [0xff, 0xff]

def IPv4 (a b c d : UInt8) : IP := v4InV6Prefix ++ [a, b, c, d]

def IPv4zero : IP := IPv4 0 0 0 0
def IPv6unspecified : IP := List.replicate IPv6len 0
def IPv6loopback : IP := List.replicate 15 0 ++ [1]

def IP.To4 (ip : IP) : Option IP :=
  if ip.length = IPv4len then some ip
  else if ip.length = IPv6len ∧ ip.take 12 = v4InV6Prefix then some (ip.drop 12)
  else none

theorem IP.To4_eq_some_iff {ip x : IP} :
    ip.To4 = some x ↔ x.length = IPv4len ∧ (ip = x ∨ ip = v4InV6Prefix ++ x) := by
  unfold To4
  constructor
  · intro h
    split at h
    · rename_i hlen
      cases h
      exact ⟨hlen, .inl rfl⟩
    · split at h
      · rename_i hmapped
        cases h
        refine ⟨by simp [hmapped.1, IPv6len, IPv4len], .inr ?_⟩
        rw [← hmapped.2, List.take_append_drop]
      · cases h
  · rintro ⟨hlen, rfl | rfl⟩
    · rw [if_pos hlen]
    · have hlen' : (v4InV6Prefix ++ x).length = IPv6len := by
        rw [List.length_append, hlen]
        rfl
      have htake : (v4InV6Prefix ++ x).take 12 = v4InV6Prefix := List.take_left' rfl
      have hdrop : (v4InV6Prefix ++ x).drop 12 = x := List.drop_left' rfl
      rw [hlen', if_neg (by decide), if_pos ⟨rfl, htake⟩, hdrop]

/-- Equal as addresses, in either form. -/
def IP.Equal (ip x : IP) : Bool :=
  if ip.length = x.length then ip == x
  else if ip.length = IPv4len ∧ x.length = IPv6len then
    x.take 12 == v4InV6Prefix && ip == x.drop 12
  else if ip.length = IPv6len ∧ x.length = IPv4len then
    ip.take 12 == v4InV6Prefix && ip.drop 12 == x
  else false

def big : Nat := 0xffffff

def decVal (c : UInt8) : Option Nat :=
  if 0x30 ≤ c ∧ c ≤ 0x39 then some (c.toNat - 0x30) else none

def hexVal (c : UInt8) : Option Nat :=
  if 0x30 ≤ c ∧ c ≤ 0x39 then some (c.toNat - 0x30)
  else if 0x61 ≤ c ∧ c ≤ 0x66 then some (c.toNat - 0x57)
  else if 0x41 ≤ c ∧ c ≤ 0x46 then some (c.toNat - 0x37)
  else none

/-- The number at the beginning of a string and the number of its digits. The value only grows, so
it is compared with `big` at the end. -/
def toi (base : Nat) (val : UInt8 → Option Nat) (s : Bytes) : Option (Nat × Nat) :=
  let digits := s.takeWhile fun c => (val c).isSome
  let n := digits.foldl (fun n c => n * base + (val c).getD 0) 0
  if digits = [] ∨ big ≤ n then none else some (n, digits.length)

def dtoi : Bytes → Option (Nat × Nat) := toi 10 decVal

def xtoi : Bytes → Option (Nat × Nat) := toi 16 hexVal

/-- The numbers that are left of an address of four, with the dots before them. -/
def parseOctets : Nat → Bytes → Bytes → Option Bytes
  | 0, p, [] => some p
  | 0, _, _ :: _ => none
  | left + 1, p, s => do
    let s ← if p = [] then some s else if s.head? = some 0x2e then some s.tail else none
    let (n, c) ← dtoi s
    if 0xff < n then none
    parseOctets left (p ++ [UInt8.ofNat n]) (s.drop c)

def parseIPv4 (s : Bytes) : Option IP := (parseOctets IPv4len [] s).map fun p => v4InV6Prefix ++ p

/-- The loop of `parseIPv6`, with the groups that still fit. The position of the ellipsis is in
`ellipsis`. -/
def parseGroups : Nat → IP → Option Nat → Bytes → Option (IP × Option Nat × Bytes)
  | 0, ip, ellipsis, s => some (ip, ellipsis, s)
  | left + 1, ip, ellipsis, s => do
    let (n, c) ← xtoi s
    if 0xffff < n then none
    let rest := s.drop c
    if rest.head? = some 0x2e then
      if ellipsis = none ∧ ip.length ≠ IPv6len - IPv4len then none
      if IPv6len < ip.length + IPv4len then none
      let ip4 ← parseIPv4 s
      return (ip ++ ip4.drop 12, ellipsis, [])
    else
      let ip := ip ++ [UInt8.ofNat (n / 256), UInt8.ofNat n]
      match rest with
      | [] => return (ip, ellipsis, [])
      | [_] => none
      | c :: d :: s =>
        if c ≠ 0x3a then none
        else if d = 0x3a then
          if ellipsis.isSome then none
          else if s = [] then return (ip, some ip.length, [])
          else parseGroups left ip (some ip.length) s
        else parseGroups left ip ellipsis (d :: s)

def parseIPv6 (s : Bytes) : Option IP := do
  let (ellipsis, s) : Option Nat × Bytes :=
    if s.take 2 = [0x3a, 0x3a] then (some 0, s.drop 2) else (none, s)
  if ellipsis.isSome ∧ s = [] then return IPv6unspecified
  let (ip, ellipsis, s) ← parseGroups 8 [] ellipsis s
  if s ≠ [] then none
  else if ip.length < IPv6len then
    match ellipsis with
    | none => none
    | some e => return ip.take e ++ List.replicate (IPv6len - ip.length) 0 ++ ip.drop e
  else if ellipsis.isSome then none
  else return ip

/-- The index of the last occurrence. -/
def last (s : Bytes) (b : UInt8) : Option Nat :=
  (s.reverse.findIdx? (· == b)).map (s.length - 1 - ·)

def indexByte (s : Bytes) (b : UInt8) : Option Nat := s.findIdx? (· == b)

/-- The zone begins after the last percent sign, which is not the first character. -/
def splitHostZone (s : Bytes) : Bytes × Bytes :=
  match last s 0x25 with
  | some (i + 1) => (s.take (i + 1), s.drop (i + 2))
  | _ => (s, [])

/-- The first dot or colon tells the form. Of the zone nothing is needed. -/
def parseIPZone (s : Bytes) : Option IP :=
  match s.find? fun c => c == 0x2e || c == 0x3a with
  | none => none
  | some c => if c = 0x2e then parseIPv4 s else parseIPv6 (splitHostZone s).1

def ParseIP (s : Bytes) : Option IP :=
  match s.find? fun c => c == 0x2e || c == 0x3a with
  | none => none
  | some c => if c = 0x2e then parseIPv4 s else parseIPv6 s

structure IPNet where
  IP : NetAddr.IP
  Mask : Bytes

/-- The bytes of a mask with this many ones. -/
def maskBytes : Nat → Nat → Bytes
  | _, 0 => []
  | ones, l + 1 =>
    if 8 ≤ ones then 0xff :: maskBytes (ones - 8) l else ~~~(0xff >>> UInt8.ofNat ones) :: maskBytes 0 l

def CIDRMask (ones bits : Nat) : Bytes :=
  if bits ≠ 8 * IPv4len ∧ bits ≠ 8 * IPv6len then []
  else if bits < ones then []
  else maskBytes ones (bits / 8)

def networkNumberAndMask (n : IPNet) : Option (Bytes × Bytes) :=
  match n.IP.To4 with
  | some ip =>
    if n.Mask.length = IPv4len then some (ip, n.Mask)
    else if n.Mask.length = IPv6len then some (ip, n.Mask.drop 12)
    else none
  | none =>
    if n.IP.length ≠ IPv6len then none
    else if n.Mask.length = IPv6len then some (n.IP, n.Mask)
    else none

def IPNet.Contains (n : IPNet) (ip : NetAddr.IP) : Bool :=
  let ip := ip.To4.getD ip
  match networkNumberAndMask n with
  -- no number is the empty slice
  | none => ip == []
  | some (nn, m) =>
    ip.length == nn.length &&
      (List.zipWith (fun a b => a &&& b) nn m == List.zipWith (fun a b => a &&& b) ip m)

/-- A network of the old form has only addresses of that form in it. -/
theorem IPNet.Contains_iff {n : IPNet} {nn m : Bytes} (hnet : networkNumberAndMask n = some (nn, m))
    (hlen : nn.length = IPv4len) (ip : NetAddr.IP) :
    n.Contains ip = true ↔ ∃ x, ip.To4 = some x ∧
      List.zipWith (fun a b => a &&& b) nn m = List.zipWith (fun a b => a &&& b) x m := by
  unfold Contains
  cases hip : ip.To4 with
  | some x =>
    have hx := (IP.To4_eq_some_iff.mp hip).1
    simp [hnet, hlen, hx]
  | none =>
    have hother : ip.length ≠ IPv4len := by
      intro h
      rw [IP.To4, if_pos h] at hip
      cases hip
    simp [hnet, hlen, hother]

/-- Host and port, or the text of the error. -/
def SplitHostPort (hostport : Bytes) : Except String (Bytes × Bytes) :=
  match last hostport 0x3a with
  | none => .error "missing port in address"
  | some i =>
    let rest (host : Bytes) (j k : Nat) : Except String (Bytes × Bytes) :=
      if (indexByte (hostport.drop j) 0x5b).isSome then .error "unexpected '[' in address"
      else if (indexByte (hostport.drop k) 0x5d).isSome then .error "unexpected ']' in address"
      else .ok (host, hostport.drop (i + 1))
    if hostport.head? = some 0x5b then
      match indexByte hostport 0x5d with
      | none => .error "missing ']' in address"
      | some close =>
        if close + 1 = hostport.length then .error "missing port in address"
        else if close + 1 = i then rest ((hostport.take close).drop 1) 1 (close + 1)
        else if hostport[close + 1]? = some 0x3a then .error "too many colons in address"
        else .error "missing port in address"
    else
      let host := hostport.take i
      if (indexByte host 0x3a).isSome then .error "too many colons in address"
      else rest host 0 0

end CtfChallenges.Framework.NetAddr
