import EthernetPing.Lib.OnesComplement
import EthernetPing.Net.Pbuf

/-!
# Internet checksums

The checksum of a chain is that of its bytes, wherever the buffers lie and however the bytes
are spread over them: the sums of buffers with an odd address or behind an odd number of bytes
come out with their bytes swapped, and are swapped back.
-/

namespace EthernetPing

def foldU32t (u : UInt32) : UInt32 := (u >>> 16) + (u &&& 0x0000ffff)

def swapBytesInWord (w : UInt32) : UInt32 := ((w &&& 0xff) <<< 8) ||| ((w &&& 0xff00) >>> 8)

/-- `PP_HTONS` on a little-endian host. -/
def lwipHtons (x : UInt16) : UInt16 := ((x &&& 0x00ff) <<< 8) ||| ((x &&& 0xff00) >>> 8)

/-- The loop of `lwip_standard_chksum` over the aligned words, with the byte that is left over. -/
def sumWords : List UInt8 → UInt32 → UInt32 × List UInt8
  | lo :: hi :: rest, sum => sumWords rest (sum + (ofLe16 lo hi).toUInt32)
  | rest, sum => (sum, rest)

/-- `lwip_standard_chksum` of the bytes at an even or odd address. -/
def lwipStandardChksum (odd : Bool) (data : List UInt8) : UInt16 :=
  let first := if odd then data.take 1 else []
  let bulk := sumWords (data.drop first.length) 0
  let t := ofLe16 (bulk.2.headD 0) (first.headD 0)
  let sum := foldU32t (foldU32t (bulk.1 + t.toUInt32))
  (if odd then swapBytesInWord sum else sum).toUInt16

def inetChksum (odd : Bool) (data : List UInt8) : UInt16 := ~~~ lwipStandardChksum odd data

/-- The loop over a chain that `inet_chksum_pbuf` and `inet_cksum_pseudo_base` share; `odd` tells
which payloads begin at odd addresses. -/
def chksumPbufs (odd : Pbuf → Bool) : List Pbuf → UInt32 → Bool → UInt32
  | [], acc, swapped => if swapped then swapBytesInWord acc else acc
  | q :: qs, acc, swapped =>
    let acc := foldU32t (acc + (lwipStandardChksum (odd q) q.bytes).toUInt32)
    if q.len % 2 ≠ 0 then chksumPbufs odd qs (swapBytesInWord acc) !swapped
    else chksumPbufs odd qs acc swapped

def inetChksumPbuf (odd : Pbuf → Bool) (p : List Pbuf) : UInt16 :=
  ~~~ (chksumPbufs odd p 0 false).toUInt16

def inetCksumPseudoBase (odd : Pbuf → Bool) (p : List Pbuf) (proto : UInt8) (protoLen : UInt16)
    (acc : UInt32) : UInt16 :=
  let acc := chksumPbufs odd p acc false
  let acc := acc + (lwipHtons proto.toUInt16).toUInt32
  let acc := acc + (lwipHtons protoLen).toUInt32
  ~~~ (foldU32t (foldU32t acc)).toUInt16

/-- The words of the addresses, which are in network byte order. -/
def sumAddrs (src dest : UInt32) : UInt32 :=
  let acc := src &&& 0xffff
  let acc := acc + ((src >>> 16) &&& 0xffff)
  let acc := acc + (dest &&& 0xffff)
  acc + ((dest >>> 16) &&& 0xffff)

def inetChksumPseudo (odd : Pbuf → Bool) (p : List Pbuf) (proto : UInt8) (protoLen : UInt16)
    (src dest : UInt32) : UInt16 :=
  inetCksumPseudoBase odd p proto protoLen (foldU32t (foldU32t (sumAddrs src dest)))

section Words

variable {u w : UInt32} {data : List UInt8}

theorem toNat_foldU32t (u : UInt32) :
    (foldU32t u).toNat = u.toNat / 65536 + u.toNat % 65536 := by
  have hlt := u.toNat_lt
  have hlow : (u &&& 0x0000ffff).toNat = u.toNat % 65536 := by
    rw [UInt32.toNat_and]
    exact Nat.and_two_pow_sub_one_eq_mod u.toNat 16
  have hhigh : (u >>> 16).toNat = u.toNat / 65536 := by
    rw [UInt32.toNat_shiftRight]
    exact Nat.shiftRight_eq_div_pow u.toNat 16
  rw [foldU32t, UInt32.toNat_add, hlow, hhigh]
  omega

theorem foldU32t_sameSum (u : UInt32) : SameSum (foldU32t u).toNat u.toNat := by
  rw [toNat_foldU32t]
  exact SameSum.carry _

theorem foldU32t_twice_lt (u : UInt32) : (foldU32t (foldU32t u)).toNat < 65536 := by
  have hlt := u.toNat_lt
  rw [toNat_foldU32t, toNat_foldU32t]
  omega

theorem or_shifted_bytes (n : ℕ) :
    (n &&& 0xff) <<< 8 ||| (n &&& 0xff00) >>> 8 = n % 256 * 256 + n / 256 % 256 := by
  have hlow : n &&& 0xff = n % 256 := Nat.and_two_pow_sub_one_eq_mod n 8
  have hhigh : (n &&& 0xff00) >>> 8 = n / 256 % 256 := by
    rw [Nat.shiftRight_and_distrib, Nat.shiftRight_eq_div_pow]
    exact Nat.and_two_pow_sub_one_eq_mod (n / 256) 8
  have hlt : n / 256 % 256 < 2 ^ 8 := Nat.mod_lt _ (by decide)
  rw [hlow, hhigh, ← Nat.shiftLeft_add_eq_or_of_lt hlt, Nat.shiftLeft_eq]

theorem toNat_swapBytesInWord (hw : w.toNat < 65536) :
    (swapBytesInWord w).toNat = w.toNat % 256 * 256 + w.toNat / 256 := by
  have hsmall : (w.toNat &&& 0xff) <<< 8 < 2 ^ 32 := by
    rw [show w.toNat &&& 0xff = w.toNat % 256 from Nat.and_two_pow_sub_one_eq_mod _ 8,
      Nat.shiftLeft_eq]
    omega
  have hbytes := or_shifted_bytes w.toNat
  rw [swapBytesInWord, UInt32.toNat_or, UInt32.toNat_shiftLeft, UInt32.toNat_shiftRight,
    UInt32.toNat_and, UInt32.toNat_and]
  change ((w.toNat &&& 0xff) <<< 8 % 2 ^ 32) ||| ((w.toNat &&& 0xff00) >>> 8) = _
  rw [Nat.mod_eq_of_lt hsmall, hbytes]
  omega

theorem toNat_lwipHtons (x : UInt16) :
    (lwipHtons x).toNat = x.toNat % 256 * 256 + x.toNat / 256 := by
  have hlt := x.toNat_lt
  have hsmall : (x.toNat &&& 0xff) <<< 8 < 2 ^ 16 := by
    rw [show x.toNat &&& 0xff = x.toNat % 256 from Nat.and_two_pow_sub_one_eq_mod _ 8,
      Nat.shiftLeft_eq]
    omega
  have hbytes := or_shifted_bytes x.toNat
  rw [lwipHtons, UInt16.toNat_or, UInt16.toNat_shiftLeft, UInt16.toNat_shiftRight,
    UInt16.toNat_and, UInt16.toNat_and]
  change ((x.toNat &&& 0xff) <<< 8 % 2 ^ 16) ||| ((x.toNat &&& 0xff00) >>> 8) = _
  rw [Nat.mod_eq_of_lt hsmall, hbytes]
  omega

theorem swapBytesInWord_sameSum (hw : w.toNat < 65536) :
    SameSum (swapBytesInWord w).toNat (256 * w.toNat) := by
  rw [toNat_swapBytesInWord hw]
  exact SameSum.swap hw

theorem swapBytesInWord_lt (hw : w.toNat < 65536) : (swapBytesInWord w).toNat < 65536 := by
  rw [toNat_swapBytesInWord hw]
  omega

/-- The words of a buffer do not overflow the sum. -/
theorem sumWords_spec {data : List UInt8} {sum : UInt32}
    (h : sum.toNat + data.length / 2 * 65535 < 2 ^ 32) :
    (sumWords data sum).1.toNat ≤ sum.toNat + data.length / 2 * 65535 ∧
      (sumWords data sum).2.length = data.length % 2 ∧
      SameSum ((sumWords data sum).1.toNat + octets (sumWords data sum).2)
        (sum.toNat + octets data) := by
  fun_induction sumWords with
  | case1 lo hi rest sum ih =>
    have hword := (ofLe16 lo hi).toNat_lt
    rw [List.length_cons, List.length_cons] at h
    have hadd : (sum + (ofLe16 lo hi).toUInt32).toNat = sum.toNat + (ofLe16 lo hi).toNat := by
      rw [UInt32.toNat_add, UInt16.toNat_toUInt32]
      omega
    obtain ⟨hle, hlen, hsum⟩ := ih (by omega)
    rw [hadd] at hle hsum
    refine ⟨?_, ?_, hsum.trans ?_⟩
    · rw [List.length_cons, List.length_cons]
      omega
    · rw [hlen, List.length_cons, List.length_cons]
      omega
    · have hrest : sum.toNat + octets (lo :: hi :: rest) =
          sum.toNat + (ofLe16 lo hi).toNat + 256 * (256 * octets rest) := by
        rw [octets_cons, octets_cons, toNat_ofLe16]
        ring
      rw [hrest]
      exact (SameSum.refl _).add (SameSum.double _).symm
  | case2 data sum hne =>
    have hshort : data.length < 2 := by
      rcases data with _ | ⟨lo, _ | ⟨hi, rest⟩⟩
      · exact Nat.zero_lt_two
      · exact Nat.one_lt_two
      · exact (hne lo hi rest rfl).elim
    exact ⟨Nat.le_add_right _ _, (Nat.mod_eq_of_lt hshort).symm, SameSum.refl _⟩

theorem octets_short {bs : List UInt8} (h : bs.length < 2) : octets bs = (bs.headD 0).toNat := by
  rcases bs with _ | ⟨b, _ | ⟨c, bs⟩⟩
  · rfl
  · exact (octets_cons b []).trans (Nat.add_zero _)
  · rw [List.length_cons, List.length_cons] at h
    omega

theorem toUInt16_toNat_of_lt (hw : w.toNat < 65536) : w.toUInt16.toNat = w.toNat := by
  rw [UInt32.toNat_toUInt16]
  exact Nat.mod_eq_of_lt hw

theorem foldU32t_twice_sameSum (u : UInt32) :
    SameSum (foldU32t (foldU32t u)).toNat u.toNat :=
  (foldU32t_sameSum _).trans (foldU32t_sameSum u)

theorem sumWords_ends {data : List UInt8} (b : UInt8) (hdata : data.length ≤ 0x1ffff ∨
    data.length ≤ 0x20000 ∧ b = 0) :
    SameSum ((sumWords data 0).1 + (ofLe16 ((sumWords data 0).2.headD 0) b).toUInt32).toNat
      (octets data + 256 * b.toNat) := by
  have hzero : (0 : UInt32).toNat = 0 := rfl
  have hroom : (0 : UInt32).toNat + data.length / 2 * 65535 < 2 ^ 32 := by
    rw [hzero]
    omega
  obtain ⟨hle, hlen, hsum⟩ := sumWords_spec hroom
  have hleft := octets_short (hlen.trans_lt (Nat.mod_lt _ Nat.zero_lt_two))
  have hb := b.toNat_lt
  have hhead := ((sumWords data 0).2.headD 0).toNat_lt
  have hword := toNat_ofLe16 ((sumWords data 0).2.headD 0) b
  rw [hzero, Nat.zero_add] at hle hsum
  have hadd : ((sumWords data 0).1 + (ofLe16 ((sumWords data 0).2.headD 0) b).toUInt32).toNat =
      (sumWords data 0).1.toNat + octets (sumWords data 0).2 + 256 * b.toNat := by
    rw [UInt32.toNat_add, UInt16.toNat_toUInt32, hword, hleft, Nat.mod_eq_of_lt, Nat.add_assoc]
    rcases hdata with hd | ⟨hd, rfl⟩
    · omega
    · rw [UInt8.toNat_zero]
      omega
  rw [hadd]
  exact hsum.add (SameSum.refl _)

/-- `lwip_standard_chksum` does not depend on the address. -/
theorem lwipStandardChksum_eq (odd : Bool) (hdata : data.length ≤ 0x20000) :
    lwipStandardChksum odd data = onesSum data := by
  apply eq_onesSum
  cases odd with
  | false =>
    have hends := sumWords_ends 0 (Or.inr ⟨hdata, rfl⟩)
    rw [UInt8.toNat_zero, Nat.mul_zero, Nat.add_zero] at hends
    change SameSum (foldU32t (foldU32t ((sumWords data 0).1 +
      (ofLe16 ((sumWords data 0).2.headD 0) 0).toUInt32))).toUInt16.toNat _
    rw [toUInt16_toNat_of_lt (foldU32t_twice_lt _)]
    exact (foldU32t_twice_sameSum _).trans hends
  | true =>
    cases data with
    | nil => exact SameSum.refl 0
    | cons b rest =>
      rw [List.length_cons] at hdata
      have hends := sumWords_ends b (Or.inl (by omega : rest.length ≤ 0x1ffff))
      change SameSum (swapBytesInWord (foldU32t (foldU32t ((sumWords rest 0).1 +
        (ofLe16 ((sumWords rest 0).2.headD 0) b).toUInt32)))).toUInt16.toNat _
      have hlt := foldU32t_twice_lt ((sumWords rest 0).1 +
        (ofLe16 ((sumWords rest 0).2.headD 0) b).toUInt32)
      rw [toUInt16_toNat_of_lt (swapBytesInWord_lt hlt), octets_cons]
      refine (swapBytesInWord_sameSum hlt).trans
        ((((foldU32t_twice_sameSum _).trans hends).mul 256).trans ?_)
      rw [Nat.mul_add, Nat.add_comm]
      exact (SameSum.double _).add (SameSum.refl _)

end Words

section Chains

variable {p : List Pbuf} {acc : UInt32}

theorem foldU32t_add {x : UInt32} {w : UInt16} {n : ℕ} (hx : x.toNat < 65536)
    (hw : SameSum w.toNat n) :
    (foldU32t (x + w.toUInt32)).toNat < 65536 ∧
      SameSum (foldU32t (x + w.toUInt32)).toNat (x.toNat + n) := by
  have hlt := w.toNat_lt
  have hadd : (x + w.toUInt32).toNat = x.toNat + w.toNat := by
    rw [UInt32.toNat_add, UInt16.toNat_toUInt32]
    omega
  refine ⟨?_, (foldU32t_sameSum _).trans ?_⟩
  · rw [toNat_foldU32t, hadd]
    omega
  · rw [hadd]
    exact (SameSum.refl _).add hw

theorem Pbuf.odd_len (q : Pbuf) : q.len % 2 ≠ 0 ↔ q.bytes.length % 2 = 1 := by
  rw [q.length_bytes, ne_eq, ← UInt16.toNat_inj, UInt16.toNat_mod]
  change ¬ q.len.toNat % 2 = 0 ↔ _
  omega

/-- A sum whose bytes are swapped behind every odd buffer. -/
theorem chksumPbufs_sameSum (odd : Pbuf → Bool) (swapped : Bool) (hacc : acc.toNat < 65536) :
    (chksumPbufs odd p acc swapped).toNat < 65536 ∧
      SameSum (chksumPbufs odd p acc swapped).toNat
        ((if swapped then 256 else 1) * (acc.toNat + octets (chainBytes p))) := by
  induction p generalizing acc swapped with
  | nil =>
    cases swapped with
    | false => exact ⟨hacc, by rw [if_neg Bool.false_ne_true, Nat.one_mul]; exact SameSum.refl _⟩
    | true => exact ⟨swapBytesInWord_lt hacc, swapBytesInWord_sameSum hacc⟩
  | cons q qs ih =>
    have hq : q.bytes.length ≤ 0x20000 := by
      have := q.len.toNat_lt
      rw [q.length_bytes]
      omega
    have hsum := lwipStandardChksum_eq (odd q) hq ▸ onesSum_sameSum q.bytes
    obtain ⟨hlt, hsame⟩ := foldU32t_add hacc hsum
    have hassoc : acc.toNat + (octets q.bytes + 256 ^ q.bytes.length * octets (chainBytes qs)) =
        acc.toNat + octets q.bytes + 256 ^ q.bytes.length * octets (chainBytes qs) :=
      (Nat.add_assoc _ _ _).symm
    rw [chainBytes_cons, octets_append, chksumPbufs, hassoc]
    split
    · next hodd =>
      have hpow := SameSum.pow_odd (q.odd_len.mp hodd) (octets (chainBytes qs))
      have hswap := (swapBytesInWord_sameSum hlt).trans (hsame.mul 256)
      obtain ⟨hlt', hsame'⟩ := ih (!swapped) (swapBytesInWord_lt hlt)
      refine ⟨hlt', hsame'.trans ?_⟩
      cases swapped with
      | true =>
        -- the swap of this buffer undoes the one that is due
        rw [Bool.not_true, if_neg Bool.false_ne_true, Nat.one_mul, if_pos rfl, Nat.mul_add]
        exact (hswap.add (SameSum.double _).symm).trans ((SameSum.refl _).add (hpow.symm.mul 256))
      | false =>
        rw [Bool.not_false, if_pos rfl, if_neg Bool.false_ne_true, Nat.one_mul, Nat.mul_add]
        exact ((hswap.mul 256).trans (SameSum.double _)).add hpow.symm
    · next heven =>
      have hlen : q.bytes.length % 2 = 0 := by
        have hodd := q.odd_len.not.mp heven
        omega
      obtain ⟨hlt', hsame'⟩ := ih swapped hlt
      exact ⟨hlt', hsame'.trans ((hsame.add (SameSum.pow_even hlen _).symm).mul _)⟩

theorem inetChksumPbuf_eq (odd : Pbuf → Bool) (p : List Pbuf) :
    inetChksumPbuf odd p = ~~~ onesSum (chainBytes p) := by
  have hzero : (0 : UInt32).toNat = 0 := rfl
  obtain ⟨hlt, hsame⟩ := chksumPbufs_sameSum (p := p) odd false
    (by decide : (0 : UInt32).toNat < 65536)
  rw [if_neg Bool.false_ne_true, Nat.one_mul, hzero, Nat.zero_add] at hsame
  rw [inetChksumPbuf]
  congr 1
  apply eq_onesSum
  rwa [toUInt16_toNat_of_lt hlt]

/-- An address as it lies in memory, in network byte order. -/
def ip4Bytes (addr : UInt32) : List UInt8 :=
  le16 addr.toUInt16 ++ le16 (addr >>> 16).toUInt16

/-- What goes into the checksum of a segment beside its bytes. -/
def pseudoHeader (proto : UInt8) (protoLen : UInt16) (src dest : UInt32) : List UInt8 :=
  ip4Bytes src ++ ip4Bytes dest ++ [0, proto] ++ le16 (lwipHtons protoLen)

theorem toNat_and_ffff (u : UInt32) : (u &&& 0xffff).toNat = u.toUInt16.toNat := by
  rw [UInt32.toNat_and, UInt32.toNat_toUInt16]
  exact Nat.and_two_pow_sub_one_eq_mod u.toNat 16

@[simp] theorem length_ip4Bytes (addr : UInt32) : (ip4Bytes addr).length = 4 := rfl

@[simp] theorem length_pseudoHeader (proto : UInt8) (protoLen : UInt16) (src dest : UInt32) :
    (pseudoHeader proto protoLen src dest).length = 12 := rfl

theorem ip4Bytes_sameSum (addr : UInt32) :
    SameSum (octets (ip4Bytes addr)) (addr.toUInt16.toNat + (addr >>> 16).toUInt16.toNat) := by
  have h := octets_even (by rw [length_le16] : (le16 addr.toUInt16).length % 2 = 0)
    (le16 (addr >>> 16).toUInt16)
  rwa [octets_le16, octets_le16] at h

theorem octets_proto (proto : UInt8) :
    octets [0, proto] = (lwipHtons proto.toUInt16).toNat := by
  have hlt := proto.toNat_lt
  rw [octets_pair, toNat_ofLe16, toNat_lwipHtons, UInt8.toNat_toUInt16, UInt8.toNat_zero]
  omega

theorem pseudoHeader_sameSum (proto : UInt8) (protoLen : UInt16) (src dest : UInt32) :
    SameSum (octets (pseudoHeader proto protoLen src dest))
      (src.toUInt16.toNat + (src >>> 16).toUInt16.toNat +
        (dest.toUInt16.toNat + (dest >>> 16).toUInt16.toNat) +
        (lwipHtons proto.toUInt16).toNat + (lwipHtons protoLen).toNat) := by
  have hsrc : (ip4Bytes src).length % 2 = 0 := by simp
  have hboth : (ip4Bytes src ++ ip4Bytes dest).length % 2 = 0 := by simp
  have hthree : (ip4Bytes src ++ ip4Bytes dest ++ [0, proto]).length % 2 = 0 := by simp
  have haddrs := (octets_even hsrc (ip4Bytes dest)).trans
    ((ip4Bytes_sameSum src).add (ip4Bytes_sameSum dest))
  have hproto := (octets_even hboth [0, proto]).trans (haddrs.add (SameSum.refl _))
  have hlen := (octets_even hthree (le16 (lwipHtons protoLen))).trans
    (hproto.add (SameSum.refl _))
  rwa [octets_proto, octets_le16] at hlen

theorem toNat_sumAddrs (src dest : UInt32) :
    (sumAddrs src dest).toNat = src.toUInt16.toNat + (src >>> 16).toUInt16.toNat +
      (dest.toUInt16.toNat + (dest >>> 16).toUInt16.toNat) := by
  have hsrc := src.toUInt16.toNat_lt
  have hsrc' := (src >>> 16).toUInt16.toNat_lt
  have hdest := dest.toUInt16.toNat_lt
  have hdest' := (dest >>> 16).toUInt16.toNat_lt
  rw [sumAddrs, UInt32.toNat_add, UInt32.toNat_add, UInt32.toNat_add, toNat_and_ffff,
    toNat_and_ffff, toNat_and_ffff, toNat_and_ffff]
  omega

/-- The checksum of a segment is that of the bytes behind the pseudo header. -/
theorem inetChksumPseudo_eq (odd : Pbuf → Bool) (p : List Pbuf) (proto : UInt8) (protoLen : UInt16)
    (src dest : UInt32) : inetChksumPseudo odd p proto protoLen src dest =
      ~~~ onesSum (pseudoHeader proto protoLen src dest ++ chainBytes p) := by
  have hbase := foldU32t_twice_sameSum (sumAddrs src dest)
  rw [toNat_sumAddrs] at hbase
  obtain ⟨hlt, hchain⟩ := chksumPbufs_sameSum (p := p) odd false
    (foldU32t_twice_lt (sumAddrs src dest))
  rw [if_neg Bool.false_ne_true, Nat.one_mul] at hchain
  rw [inetChksumPseudo, inetCksumPseudoBase]
  generalize chksumPbufs odd p (foldU32t (foldU32t (sumAddrs src dest))) false = acc
    at hlt hchain ⊢
  have hproto := (lwipHtons proto.toUInt16).toNat_lt
  have hlen := (lwipHtons protoLen).toNat_lt
  have hall : (acc + (lwipHtons proto.toUInt16).toUInt32 + (lwipHtons protoLen).toUInt32).toNat =
      acc.toNat + (lwipHtons proto.toUInt16).toNat + (lwipHtons protoLen).toNat := by
    rw [UInt32.toNat_add, UInt32.toNat_add, UInt16.toNat_toUInt32, UInt16.toNat_toUInt32]
    omega
  have hdone := foldU32t_twice_sameSum
    (acc + (lwipHtons proto.toUInt16).toUInt32 + (lwipHtons protoLen).toUInt32)
  rw [hall] at hdone
  have hbegin := hchain.trans (hbase.add (SameSum.refl _))
  have heven : (pseudoHeader proto protoLen src dest).length % 2 = 0 := by simp
  have hflat := (octets_even heven (chainBytes p)).trans
    ((pseudoHeader_sameSum proto protoLen src dest).add (SameSum.refl _))
  have hsum := hdone.trans ((hbegin.add (SameSum.refl _)).add (SameSum.refl _))
  have hword := toUInt16_toNat_of_lt (foldU32t_twice_lt
    (acc + (lwipHtons proto.toUInt16).toUInt32 + (lwipHtons protoLen).toUInt32))
  have heq : src.toUInt16.toNat + (src >>> 16).toUInt16.toNat +
      (dest.toUInt16.toNat + (dest >>> 16).toUInt16.toNat) + octets (chainBytes p) +
      (lwipHtons proto.toUInt16).toNat + (lwipHtons protoLen).toNat =
      src.toUInt16.toNat + (src >>> 16).toUInt16.toNat +
      (dest.toUInt16.toNat + (dest >>> 16).toUInt16.toNat) +
      (lwipHtons proto.toUInt16).toNat + (lwipHtons protoLen).toNat + octets (chainBytes p) := by
    omega
  rw [heq] at hsum
  have hsame := hsum.trans hflat.symm
  rw [← hword] at hsame
  rw [← eq_onesSum hsame]

theorem octets_append_eq_zero {xs ys : List UInt8} (h : octets (xs ++ ys) = 0) :
    octets xs = 0 ∧ octets ys = 0 := by
  have hpos : 0 < 256 ^ xs.length := Nat.pow_pos (by decide)
  rw [octets_append, Nat.add_eq_zero_iff, Nat.mul_eq_zero] at h
  exact ⟨h.1, h.2.resolve_left hpos.ne'⟩

/-- The protocol number keeps the sum from being zero. -/
theorem octets_pseudoHeader_ne_zero {proto : UInt8} (hproto : proto ≠ 0) (protoLen : UInt16)
    (src dest : UInt32) (bs : List UInt8) :
    octets (pseudoHeader proto protoLen src dest ++ bs) ≠ 0 := by
  intro h
  have hhead := (octets_append_eq_zero h).1
  have hfront := (octets_append_eq_zero (octets_append_eq_zero hhead).1).2
  rw [octets_cons, octets_cons, octets_nil, UInt8.toNat_zero] at hfront
  exact hproto (UInt8.toNat_inj.mp (by rw [UInt8.toNat_zero]; omega))

variable {p' : List Pbuf} {pre post : List UInt8} {proto : UInt8} {protoLen : UInt16}
  {src dest : UInt32}

/-- A segment whose checksum was filled in passes the check, in whatever buffers it arrives. -/
theorem inetChksumPseudo_filled (odd odd' : Pbuf → Bool) (hpre : pre.length % 2 = 0)
    (hp : chainBytes p = pre ++ le16 0 ++ post)
    (hp' : chainBytes p' =
      pre ++ le16 (inetChksumPseudo odd p proto protoLen src dest) ++ post) :
    inetChksumPseudo odd' p' proto protoLen src dest = 0 := by
  have heven : (pseudoHeader proto protoLen src dest ++ pre).length % 2 = 0 := by
    rw [List.length_append, length_pseudoHeader]
    omega
  rw [inetChksumPseudo_eq, hp', ← List.append_assoc, ← List.append_assoc]
  refine onesSum_filled heven ?_
  rw [inetChksumPseudo_eq, hp, ← List.append_assoc, ← List.append_assoc]

/-- Some bytes in one buffer, or cut behind the third one. -/
def oneBuffer (bs : List UInt8) : List Pbuf := [⟨fun i => bs.getD i 0, 6, 6⟩]

def twoBuffers (bs : List UInt8) : List Pbuf :=
  [⟨fun i => bs.getD i 0, 6, 3⟩, ⟨fun i => bs.getD (3 + i) 0, 3, 3⟩]

theorem inetChksumPseudo_filled_cut :
    inetChksumPseudo (fun _ => true) (twoBuffers [1, 2, 0x78, 0x33, 3, 4]) 6 6 0x0501a8c0
      0x6401a8c0 = 0 :=
  inetChksumPseudo_filled (fun _ => false) _ (rfl : [(1 : UInt8), 2].length % 2 = 0)
    (by decide : chainBytes (oneBuffer [1, 2, 0, 0, 3, 4]) = [1, 2] ++ le16 0 ++ [3, 4])
    (by decide)

/-- The check notices every exchanged word, but for the two words of sum zero. -/
theorem inetChksumPseudo_exchanged (odd odd' : Pbuf → Bool) {v w : UInt16} (hproto : proto ≠ 0)
    (hpre : pre.length % 2 = 0)
    (hp : chainBytes p = pre ++ le16 v ++ post) (hp' : chainBytes p' = pre ++ le16 w ++ post)
    (hright : inetChksumPseudo odd p proto protoLen src dest = 0) :
    inetChksumPseudo odd' p' proto protoLen src dest = 0 ↔
      v = w ∨ (v = 0 ∧ w = 0xffff) ∨ (v = 0xffff ∧ w = 0) := by
  have heven : (pseudoHeader proto protoLen src dest ++ pre).length % 2 = 0 := by
    rw [List.length_append, length_pseudoHeader]
    omega
  have hne := octets_pseudoHeader_ne_zero hproto protoLen src dest (chainBytes p')
  rw [inetChksumPseudo_eq, hp, ← List.append_assoc, ← List.append_assoc] at hright
  rw [hp', ← List.append_assoc, ← List.append_assoc] at hne
  rw [inetChksumPseudo_eq, hp', ← List.append_assoc, ← List.append_assoc,
    onesSum_exchanged heven hright, and_iff_left hne]

theorem inetChksumPseudo_exchanged_word :
    inetChksumPseudo (fun _ => true) (twoBuffers [1, 2, 0x79, 0x33, 3, 4]) 6 6 0x0501a8c0
        0x6401a8c0 = 0 ↔
      (0x3378 : UInt16) = 0x3379 ∨ ((0x3378 : UInt16) = 0 ∧ (0x3379 : UInt16) = 0xffff) ∨
        ((0x3378 : UInt16) = 0xffff ∧ (0x3379 : UInt16) = 0) :=
  inetChksumPseudo_exchanged (fun _ => false) _ (by decide)
    (rfl : [(1 : UInt8), 2].length % 2 = 0)
    (by decide : chainBytes (oneBuffer [1, 2, 0x78, 0x33, 3, 4]) =
      [1, 2] ++ le16 0x3378 ++ [3, 4]) (by decide) (by decide)

end Chains

end EthernetPing
