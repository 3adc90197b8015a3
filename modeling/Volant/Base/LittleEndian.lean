-- SUMMARY: Fixed-width little-endian integers on byte lists, and readers that consume a byte list from the front.
import Mathlib.Tactic

/-!
# Little-endian bytes

Encoding and decoding of fixed-width integers, and a small vocabulary of
readers. A reader takes bytes from the front of a list and fails when the list
is too short. The lemmas come in pairs: what an encoder writes in front of
`rest`, the matching reader turns back into the value and leaves `rest`.
-/

abbrev Bytes := List UInt8

namespace LittleEndian

/-- The `w` low bytes of `n`, lowest first. Higher bytes of `n` are lost. -/
def encode : Nat → Nat → Bytes
  | 0, _ => []
  | w + 1, n => UInt8.ofNat (n % 256) :: encode w (n / 256)

def decode : Bytes → Nat
  | [] => 0
  | b :: bs => b.toNat + 256 * decode bs

@[simp] theorem length_encode (w n : Nat) : (encode w n).length = w := by
  induction w generalizing n with
  | zero => rfl
  | succ w ih => simp [encode, ih]

theorem decode_encode {w n : Nat} (h : n < 256 ^ w) : decode (encode w n) = n := by
  induction w generalizing n with
  | zero =>
    have : n = 0 := by simpa using h
    simp [encode, decode, this]
  | succ w ih =>
    have hdiv : n / 256 < 256 ^ w := by
      apply Nat.div_lt_of_lt_mul
      simpa [Nat.pow_succ, Nat.mul_comm] using h
    have hbyte : (UInt8.ofNat (n % 256)).toNat = n % 256 := by
      simp
    simp only [encode, decode, ih hdiv, hbyte]
    omega

theorem decode_lt (bs : Bytes) : decode bs < 256 ^ bs.length := by
  induction bs with
  | nil => simp [decode]
  | cons b bs ih =>
    have hb : b.toNat < 256 := b.toNat_lt
    simp only [decode, List.length_cons, Nat.pow_succ]
    omega

@[simp] theorem drop_encode_of_le {w k : Nat} (h : w ≤ k) (n : Nat) : (encode w n).drop k = [] :=
  List.drop_eq_nil_of_le (by simpa using h)

end LittleEndian

/-! ## Readers -/

/-- A reader consumes bytes from the front and fails on a short input. -/
abbrev Reader := StateT Bytes Option

namespace Reader

variable {α β : Type} {buf rest : Bytes} {n : Nat} {r : Reader α}

/-- An unsigned little-endian integer of `w` bytes. -/
def uint (w : Nat) : Reader Nat := fun buf =>
  if buf.length < w then none else some (LittleEndian.decode (buf.take w), buf.drop w)

/-- Exactly `n` bytes. -/
def bytes (n : Nat) : Reader Bytes := fun buf =>
  if buf.length < n then none else some (buf.take n, buf.drop n)

/-- Run a reader `n` times and collect the results in order. -/
def times (n : Nat) (r : Reader α) : Reader (List α) :=
  match n with
  | 0 => pure []
  | n + 1 => do
    let a ← r
    let as ← times n r
    pure (a :: as)

variable {f : α → Reader β}

theorem bind_run {x : Reader α} {a : α} (h : x buf = some (a, rest)) :
    (x >>= f) buf = f a rest := by
  simp [bind, StateT.bind, h]

/-! ### What a successful read has consumed -/

theorem bind_eq_some {x : Reader α} {b : β} : (x >>= f) buf = some (b, rest) ↔
      ∃ a mid, x buf = some (a, mid) ∧ f a mid = some (b, rest) := by
  cases hx : x buf with
  | none => simp [bind, StateT.bind, hx]
  | some p =>
    obtain ⟨a, mid⟩ := p
    simp [bind, StateT.bind, hx]

theorem pure_eq_some {a b : α} : (pure a : Reader α) buf = some (b, rest) ↔ b = a ∧ rest = buf := by
  change some (a, buf) = some (b, rest) ↔ b = a ∧ rest = buf
  simp [eq_comm]

theorem ite_eq_some {w : Nat} {a b : α} {after : Bytes} :
    (if buf.length < w then none else some (a, after)) = some (b, rest) ↔
      w ≤ buf.length ∧ b = a ∧ rest = after := by
  split
  · simp only [reduceCtorEq, false_iff]
    omega
  · simp only [Option.some.injEq, Prod.mk.injEq, eq_comm]
    exact ⟨fun h => ⟨by omega, h⟩, fun h => h.2⟩

theorem uint_eq_some {w : Nat} : uint w buf = some (n, rest) ↔
      w ≤ buf.length ∧ n = LittleEndian.decode (buf.take w) ∧ rest = buf.drop w := by
  unfold uint
  exact ite_eq_some

theorem bytes_eq_some {bs : Bytes} :
    bytes n buf = some (bs, rest) ↔ n ≤ buf.length ∧ bs = buf.take n ∧ rest = buf.drop n := by
  unfold bytes
  exact ite_eq_some

/-- Items that each take `size` bytes take the sum of their sizes together. -/
theorem times_consumes {size : α → Nat} {Q : α → Prop}
    (h : ∀ {buf a rest}, r buf = some (a, rest) → size a + rest.length = buf.length ∧ Q a)
    {as : List α} (hrun : times n r buf = some (as, rest)) :
    (as.map size).sum + rest.length = buf.length ∧ ∀ a ∈ as, Q a := by
  induction n generalizing buf as with
  | zero =>
    obtain ⟨rfl, rfl⟩ := pure_eq_some.mp hrun
    simp
  | succ n ih =>
    obtain ⟨a, mid, ha, hrun⟩ := bind_eq_some.mp hrun
    obtain ⟨as', mid', has, hret⟩ := bind_eq_some.mp hrun
    obtain ⟨rfl, rfl⟩ := pure_eq_some.mp hret
    obtain ⟨hsize, hq⟩ := h ha
    obtain ⟨hsizes, hqs⟩ := ih has
    refine ⟨?_, List.forall_mem_cons.mpr ⟨hq, hqs⟩⟩
    rw [List.map_cons, List.sum_cons]
    omega

theorem uint_encode {w : Nat} (h : n < 256 ^ w) (rest : Bytes) :
    uint w (LittleEndian.encode w n ++ rest) = some (n, rest) := by
  have hlen : ¬ (LittleEndian.encode w n ++ rest).length < w := by simp
  rw [uint, if_neg hlen]
  rw [List.take_left' (LittleEndian.length_encode w n),
    List.drop_left' (LittleEndian.length_encode w n), LittleEndian.decode_encode h]

theorem bytes_append (bs rest : Bytes) : bytes bs.length (bs ++ rest) = some (bs, rest) := by
  simp [bytes]

/-- Items written one after the other are read one after the other. -/
theorem times_flatMap_map {ι : Type} {enc : ι → Bytes} {f : ι → α} {l : List ι} (rest : Bytes)
    (h : ∀ i ∈ l, ∀ tail, r (enc i ++ tail) = some (f i, tail)) :
    times l.length r (l.flatMap enc ++ rest) = some (l.map f, rest) := by
  induction l with
  | nil => rfl
  | cons i l ih =>
    have hi : r (enc i ++ (l.flatMap enc ++ rest)) = some (f i, l.flatMap enc ++ rest) :=
      h i List.mem_cons_self _
    have hl := ih fun j hj => h j (List.mem_cons_of_mem _ hj)
    simp only [List.length_cons, times, List.flatMap_cons, List.append_assoc]
    rw [bind_run hi, bind_run hl]
    rfl

/-- Items written one after the other are read back. -/
theorem times_flatMap {enc : α → Bytes} {as : List α} (rest : Bytes)
    (h : ∀ a ∈ as, ∀ tail, r (enc a ++ tail) = some (a, tail)) :
    times as.length r (as.flatMap enc ++ rest) = some (as, rest) := by
  rw [times_flatMap_map (f := id) rest h, List.map_id]

end Reader
