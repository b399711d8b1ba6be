import Mathlib.Data.List.Basic
import Mathlib.Data.Nat.Bitwise

/-!
# HDLC framing on bit lists

A transmitter sends each octet least significant bit first, inserts a zero after five consecutive
ones, and closes the frame with a check sequence, the complement of a reflected CRC of the bits sent
before it. `stuff` is the insertion, with the length of the current run of ones carried along, and
`crcBit` is one step of the reflected shift register. The register after a message and its own
check sequence does not depend on the message (`register_checkSequence`): each of the sixteen bits
of the complement makes the register's low bit and the incoming bit differ in a way that the
initial contents no longer influence.
-/

namespace Lib.Hdlc

/-! ## Octets as bits -/

/-- The eight bits of an octet in the order in which they are sent, least significant first. -/
def lsbBits (o : ℕ) : List Bool :=
  (List.range 8).map o.testBit

/-- The eight bits of an octet, most significant first. -/
def msbBits (o : ℕ) : List Bool :=
  (List.range 8).map fun i => o.testBit (7 - i)

/-- The bits of a list of octets in the order in which they are sent. -/
def sent (octets : List ℕ) : List Bool :=
  octets.flatMap lsbBits

@[simp]
theorem length_lsbBits (o : ℕ) : (lsbBits o).length = 8 := by
  simp [lsbBits]

theorem length_sent (octets : List ℕ) : (sent octets).length = 8 * octets.length := by
  induction octets with
  | nil => rfl
  | cons o os ih =>
    have hs : sent (o :: os) = lsbBits o ++ sent os := by simp [sent]
    rw [hs, List.length_append, length_lsbBits, ih, List.length_cons]
    omega

theorem getD_sent (octets : List ℕ) (j i : ℕ) (hi : i < 8) (tail : List Bool)
    (hj : j < octets.length) :
    (sent octets ++ tail).getD (i + 8 * j) false = (octets.getD j 0).testBit i := by
  induction octets generalizing j with
  | nil => simp at hj
  | cons o os ih =>
    have hs : sent (o :: os) ++ tail = lsbBits o ++ (sent os ++ tail) := by simp [sent]
    rw [hs]
    cases j with
    | zero =>
      have hlt : i + 8 * 0 < (lsbBits o).length := by simp [hi]
      rw [List.getD_append _ _ _ _ hlt]
      simp [lsbBits, List.getD_eq_getElem?_getD, hi]
    | succ j =>
      have hge : (lsbBits o).length ≤ i + 8 * (j + 1) := by simp; omega
      rw [List.getD_append_right _ _ _ _ hge, length_lsbBits,
        show i + 8 * (j + 1) - 8 = i + 8 * j by omega, ih j (by simpa using hj)]
      simp

/-! ## Bit stuffing -/

/-- The bits with a zero inserted after every five consecutive ones, `run` ones having been sent
just before. -/
def stuff : ℕ → List Bool → List Bool
  | _, [] => []
  | _, false :: bs => false :: stuff 0 bs
  | run, true :: bs => if run = 4 then true :: false :: stuff 0 bs else true :: stuff (run + 1) bs

/-- The flag that opens and closes a frame. -/
def flag : List Bool :=
  [false, true, true, true, true, true, true, false]

/-- `n` alternating bits, the first of them `b`. -/
def alternating : ℕ → Bool → List Bool
  | 0, _ => []
  | n + 1, b => b :: alternating n (!b)

theorem alternating_add (m n : ℕ) (b : Bool) :
    alternating (m + n) b = alternating m b ++ alternating n (if m % 2 = 0 then b else !b) := by
  induction m generalizing b with
  | zero => simp [alternating]
  | succ m ih =>
    rw [show m + 1 + n = (m + n) + 1 by omega, alternating, alternating, ih (!b), List.cons_append]
    congr 2
    rcases Nat.mod_two_eq_zero_or_one m with h | h
    · simp [h, show (m + 1) % 2 = 1 by omega]
    · simp [h, show (m + 1) % 2 = 0 by omega]

/-! ## The check sequence -/

/-- The reflected generator polynomial of the CCITT check sequence. -/
def poly : BitVec 16 := 0x8408

/-- One incoming bit of the reflected shift register. -/
def crcBit (crc : BitVec 16) (b : Bool) : BitVec 16 :=
  if (crc.getLsbD 0 ^^ b) then (crc >>> 1) ^^^ poly else crc >>> 1

/-- The register after the bits, from all ones. -/
def register (bits : List Bool) : BitVec 16 :=
  bits.foldl crcBit 0xFFFF

/-- The check sequence of the bits: the complement of the register. -/
def checkSequence (bits : List Bool) : BitVec 16 :=
  ~~~ register bits

/-- The sixteen bits of a check sequence in the order in which they are sent. -/
def checkBits (fcs : BitVec 16) : List Bool :=
  (List.range 16).map fcs.getLsbD

/-- One step of the register on an incoming bit that is the complement of its low bit, seen apart
from the initial contents. -/
def maskStep (m : BitVec 16) : BitVec 16 :=
  if m.getLsbD 0 then m >>> 1 else (m >>> 1) ^^^ poly

/-- What the register holds, apart from its shifted initial contents, after `k` bits of the
complement of those contents. -/
def mask : ℕ → BitVec 16
  | 0 => 0
  | k + 1 => maskStep (mask k)

/-- `k` bits of the complement leave the shifted contents, and the mask that does not depend on
them. -/
theorem foldl_complement (c : BitVec 16) (k : ℕ) (hk : k ≤ 16) :
    ((List.range k).map (~~~ c).getLsbD).foldl crcBit c = (c >>> k) ^^^ mask k := by
  induction k with
  | zero => simp [mask]
  | succ k ih =>
    have hbit : ((c >>> k) ^^^ mask k).getLsbD 0 = (c.getLsbD k ^^ (mask k).getLsbD 0) := by
      simp
    have hin : (~~~ c).getLsbD k = !c.getLsbD k := by
      simp [show k < 16 by omega]
    rw [List.range_succ, List.map_append, List.foldl_append, ih (by omega)]
    simp only [List.map_cons, List.map_nil, List.foldl_cons, List.foldl_nil]
    unfold crcBit
    rw [hbit, hin, mask, maskStep]
    -- the contents' bit cancels against its complement, so only the mask decides
    cases c.getLsbD k <;> cases (mask k).getLsbD 0 <;>
      simp [BitVec.ushiftRight_xor_distrib, BitVec.shiftRight_add, BitVec.xor_assoc]

theorem register_checkSequence (bits : List Bool) :
    register (bits ++ checkBits (checkSequence bits)) = 0xF0B8 := by
  have h := foldl_complement (register bits) 16 (Nat.le_refl 16)
  have hshift : register bits >>> 16 = 0 := by
    apply BitVec.eq_of_toNat_eq
    have hlt := (register bits).isLt
    rw [BitVec.toNat_ushiftRight, Nat.shiftRight_eq_div_pow, Nat.div_eq_of_lt hlt]
    rfl
  have hmask : mask 16 = 0xF0B8 := by decide +kernel
  calc register (bits ++ checkBits (checkSequence bits))
      = (checkBits (~~~ register bits)).foldl crcBit (register bits) := by
        rw [register, List.foldl_append]
        rfl
    _ = (register bits >>> 16) ^^^ mask 16 := h
    _ = 0xF0B8 := by rw [hshift, hmask]; rfl

end Lib.Hdlc
