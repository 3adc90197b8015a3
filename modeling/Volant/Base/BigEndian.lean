-- SUMMARY: Big-endian integers of fixed width, variable-length integers, and the readers for them.
import Volant.Base.LittleEndian

/-!
# Big-endian bytes and varints

The integers of network formats: fixed width with the highest byte first, and
variable length with seven bits a byte, lowest first, where every byte but the
last has its high bit set. Signed numbers go through the zig-zag map, which
sends small numbers of either sign to small naturals.
-/

namespace BigEndian

def encode (w n : Nat) : Bytes := (LittleEndian.encode w n).reverse

def decode (bs : Bytes) : Nat := LittleEndian.decode bs.reverse

@[simp] theorem length_encode (w n : Nat) : (encode w n).length = w := by
  simp [encode]

theorem decode_encode {w n : Nat} (h : n < 256 ^ w) : decode (encode w n) = n := by
  rw [decode, encode, List.reverse_reverse, LittleEndian.decode_encode h]

end BigEndian

namespace Varint

/-- The number in groups of seven bits, lowest first. -/
def encode (n : Nat) : Bytes :=
  if n < 128 then [UInt8.ofNat n] else UInt8.ofNat (n % 128 + 128) :: encode (n / 128)
termination_by n

/-- The number at the front, and what is left. -/
def decode : Bytes → Option (Nat × Bytes)
  | [] => none
  | b :: rest =>
    if b.toNat < 128 then some (b.toNat, rest)
    else (decode rest).map fun r => (b.toNat - 128 + 128 * r.1, r.2)

theorem toNat_ofNat {n : Nat} (h : n < 256) : (UInt8.ofNat n).toNat = n := by
  rw [UInt8.toNat_ofNat', Nat.mod_eq_of_lt h]

theorem decode_encode (n : Nat) (rest : Bytes) : decode (encode n ++ rest) = some (n, rest) := by
  induction n using Nat.strongRecOn with
  | ind n ih =>
    rw [encode]
    split_ifs with hlast
    · rw [List.singleton_append, decode, toNat_ofNat (by omega), if_pos hlast]
    · rw [List.cons_append, decode, toNat_ofNat (by omega), if_neg (by omega),
        ih (n / 128) (by omega), Option.map_some]
      have hsplit : n % 128 + 128 - 128 + 128 * (n / 128) = n := by omega
      rw [hsplit]

/-- A number of `7 * k` bits takes at most `k` bytes. -/
theorem length_encode_le {k n : Nat} (hk : 0 < k) (h : n < 128 ^ k) : (encode n).length ≤ k := by
  induction k generalizing n with
  | zero => omega
  | succ k ih =>
    rw [encode]
    split_ifs with hlast
    · rw [List.length_singleton]
      omega
    · have hdiv : n / 128 < 128 ^ k := by
        rw [Nat.div_lt_iff_lt_mul (by omega)]
        exact h
      have hpos : 0 < k := by
        rcases Nat.eq_zero_or_pos k with rfl | hpos
        · omega
        · exact hpos
      exact Nat.succ_le_succ (ih hpos hdiv)

/-- Non-negative numbers go to the even ones, negative numbers to the odd ones. -/
def zigzag (n : Int) : Nat := if 0 ≤ n then (2 * n).toNat else (-2 * n - 1).toNat

def unzigzag (m : Nat) : Int := if m % 2 = 0 then m / 2 else -(m / 2) - 1

theorem unzigzag_zigzag (n : Int) : unzigzag (zigzag n) = n := by
  unfold unzigzag zigzag
  split_ifs <;> omega

end Varint

namespace Reader

/-- An unsigned big-endian integer of `w` bytes. -/
def uintBE (w : Nat) : Reader Nat := fun buf =>
  if buf.length < w then none else some (BigEndian.decode (buf.take w), buf.drop w)

/-- A signed big-endian integer of `w` bytes. -/
def intBE (w : Nat) : Reader Int := do
  let n ← uintBE w
  pure (Int.bmod n (256 ^ w))

/-- A signed integer of variable length. -/
def varint : Reader Int := fun buf => (Varint.decode buf).map fun r => (Varint.unzigzag r.1, r.2)

theorem uintBE_encode {w n : Nat} (h : n < 256 ^ w) (rest : Bytes) :
    uintBE w (BigEndian.encode w n ++ rest) = some (n, rest) := by
  have hlen : ¬ (BigEndian.encode w n ++ rest).length < w := by simp
  rw [uintBE, if_neg hlen, List.take_left' (BigEndian.length_encode w n),
    List.drop_left' (BigEndian.length_encode w n), BigEndian.decode_encode h]

theorem intBE_encode {w n : Nat} (h : n < 256 ^ w) (rest : Bytes) :
    intBE w (BigEndian.encode w n ++ rest) = some (Int.bmod n (256 ^ w), rest) :=
  bind_run (uintBE_encode h rest)

theorem varint_encode (n : Int) (rest : Bytes) :
    varint (Varint.encode (Varint.zigzag n) ++ rest) = some (n, rest) := by
  rw [varint, Varint.decode_encode, Option.map_some, Varint.unzigzag_zigzag]

/-- The value of all of the bytes. -/
def whole {α : Type} (r : Reader α) (bytes : Bytes) : Option α :=
  match r bytes with
  | some (a, []) => some a
  | _ => none

/-- Reads values until nothing is left. -/
def all {α : Type} (r : Reader α) (buf : Bytes) : Option (List α) :=
  if buf.isEmpty then some []
  else
    match r buf with
    | none => none
    | some (a, rest) =>
      if rest.length < buf.length then (all r rest).map (a :: ·) else none
termination_by buf.length

theorem whole_of_eq {α : Type} {r : Reader α} {bytes : Bytes} {a : α}
    (h : ∀ rest, r (bytes ++ rest) = some (a, rest)) : whole r bytes = some a := by
  have hend := h []
  rw [List.append_nil] at hend
  rw [whole, hend]

/-- Pieces written one after the other are read one after the other. -/
theorem all_flatMap {ι α : Type} {r : Reader α} {enc : ι → Bytes} {f : ι → α} {l : List ι}
    (h : ∀ i ∈ l, enc i ≠ [] ∧ ∀ tail, r (enc i ++ tail) = some (f i, tail)) :
    all r (l.flatMap enc) = some (l.map f) := by
  induction l with
  | nil =>
    rw [all]
    rfl
  | cons i l ih =>
    obtain ⟨hne, hread⟩ := h i List.mem_cons_self
    have hpos := List.length_pos_iff.mpr hne
    rw [List.flatMap_cons, all, if_neg (by simp [hne]), hread]
    dsimp only
    rw [if_pos (by rw [List.length_append]; omega),
      ih fun j hj => h j (List.mem_cons_of_mem i hj), Option.map_some, List.map_cons]

end Reader
