-- SUMMARY: Which produced bytes the decoder takes without a panic and without reserving more than they warrant.
import Volant.Kafka.Codec

/-!
# Produced bytes from anyone

A run of the decoder is harmless if it does not panic and reserves no more than
a limit, which is a multiple of the number of input bytes. Message sets are
always harmless, whatever is nested in them. Record batches are not: the decoder
trusts the counts it reads, a varint of six bytes shifts by too much, and the
attributes of a record are read without a check that there is a byte left. The
checker below walks over a batch as the decoder does and says what it trusts.
-/

namespace Volant.Kafka

open Decoder List
open BigEndian (encode)

variable {α β : Type} {limit : Nat} {d : Decoder α} {Q : α → Bytes → Prop} {src : Bytes}
  {n ratio : Nat} {p : Bytes → Prop} {lib : Crates}

/-- No panic, and nothing reserved beyond the limit. -/
def Harmless (limit : Nat) (o : Outcome α) : Prop :=
  o.result ≠ .error .panic ∧ ∀ n ∈ o.reserved, n ≤ limit

theorem Harmless.andThen_iff {o : Outcome α} {f : α → Outcome β} : Harmless limit (o.andThen f) ↔
      Harmless limit o ∧ ∀ a, o.result = .ok a → Harmless limit (f a) := by
  unfold Harmless Outcome.andThen
  cases hresult : o.result with
  | error stop => simp
  | ok a =>
    simp only [mem_append, reduceCtorEq, not_false_eq_true, true_and, ne_eq, Except.ok.injEq,
      forall_eq']
    exact ⟨fun ⟨hpanic, hmem⟩ => ⟨fun n hn => hmem n (.inl hn), hpanic, fun n hn => hmem n (.inr hn)⟩,
      fun ⟨hmem, hpanic, hmem'⟩ => ⟨hpanic, fun n hn => hn.elim (hmem n) (hmem' n)⟩⟩

theorem Harmless.of_ok {r : α} : Harmless limit (⟨[], .ok r⟩ : Outcome α) := by
  simp [Harmless]

theorem Harmless.of_err {e : Error} : Harmless limit (⟨[], .error (.err e)⟩ : Outcome α) := by
  simp [Harmless]

/-! ## Decoders that are harmless by themselves -/

/-- The decoder is harmless on these bytes, and the postcondition holds of what it returns. -/
def Wp (limit : Nat) (d : Decoder α) (Q : α → Bytes → Prop) (src : Bytes) : Prop :=
  Harmless limit (d src) ∧ ∀ a rest, (d src).result = .ok (a, rest) → Q a rest

variable {f : α → Decoder β}

theorem Wp.bind {Q : β → Bytes → Prop}
    (h : Wp limit d (fun a => Wp limit (f a) Q) src) : Wp limit (d >>= f) Q src := by
  refine ⟨Harmless.andThen_iff.mpr ⟨h.1, fun r hr => (h.2 r.1 r.2 hr).1⟩, fun b rest hresult => ?_⟩
  obtain ⟨a, rest', hfirst, hsecond⟩ := result_bind.mp hresult
  exact (h.2 a rest' hfirst).2 b rest hsecond

theorem Wp.pure {a : α} (h : Q a src) : Wp limit (pure a : Decoder α) Q src := by
  refine ⟨Harmless.of_ok, fun b rest hresult => ?_⟩
  cases hresult
  exact h

theorem Wp.mono {Q' : α → Bytes → Prop} (h : Wp limit d Q src)
    (himp : ∀ a rest, Q a rest → Q' a rest) : Wp limit d Q' src :=
  ⟨h.1, fun a rest hresult => himp a rest (h.2 a rest hresult)⟩

theorem Wp.map {f : α → β} {Q : β → Bytes → Prop} (h : Wp limit d (fun a => Q (f a)) src) :
    Wp limit (f <$> d) Q src :=
  (h.mono fun _ _ hq => Wp.pure hq).bind

theorem Wp.ensure {ok : Prop} [Decidable ok] {msg : String} {Q : Unit → Bytes → Prop}
    (h : ok → Q () src) : Wp limit (ensure ok msg) Q src := by
  unfold Decoder.ensure
  split_ifs with hok
  · exact Wp.pure (h hok)
  · exact ⟨Harmless.of_err, nofun⟩

theorem Wp.fail {msg : String} : Wp limit (fail msg : Decoder α) Q src :=
  ⟨Harmless.of_err, nofun⟩

theorem Wp.remaining {Q : Nat → Bytes → Prop} (h : Q src.length src) : Wp limit remaining Q src :=
  Wp.pure h

theorem Wp.chunk {Q : Bytes → Bytes → Prop} (h : Q src src) : Wp limit chunk Q src :=
  Wp.pure h

theorem Wp.lift {r : Except Error α} (h : ∀ a, r = .ok a → Q a src) : Wp limit (lift r) Q src := by
  cases r with
  | error e => exact ⟨Harmless.of_err, nofun⟩
  | ok a => exact Wp.pure (h a rfl)

theorem Wp.reserve {Q : Unit → Bytes → Prop} (hn : n ≤ limit) (h : Q () src) :
    Wp limit (reserve n) Q src := by
  refine ⟨⟨by simp [Decoder.reserve], fun m hm => ?_⟩, fun a rest hresult => ?_⟩
  · rw [mem_singleton.mp hm]
    exact hn
  · cases hresult
    exact h

theorem Wp.take {Q : Bytes → Bytes → Prop} (hn : n ≤ src.length)
    (h : ∀ bs rest, rest.length + n = src.length → bs.length = n → Q bs rest) :
    Wp limit (take n) Q src := by
  have htake : Decoder.take n src = ⟨[], .ok (src.take n, src.drop n)⟩ := if_neg (Nat.not_lt.mpr hn)
  unfold Wp
  rw [htake]
  refine ⟨Harmless.of_ok, fun bs rest hresult => ?_⟩
  cases hresult
  exact h _ _ (by rw [length_drop]; omega) (by rw [length_take]; omega)

section

variable {src : Bytes}

/-- A number of fixed size is read where its bytes are there. -/
theorem Wp.number {f : Bytes → α} (hn : n ≤ src.length)
    (h : ∀ a rest, rest.length + n = src.length → Q a rest) :
    Wp limit (do let bs ← Decoder.take n; return f bs) Q src :=
  (Wp.take hn fun _ rest hrest _ => .pure (h _ rest hrest)).bind

variable {Q : Bytes → Bytes → Prop}

/-- The bytes of a vector are there before it is made. -/
theorem Wp.copyToVec {len : Nat} (hlen : len ≤ src.length) (hlimit : len ≤ limit)
    (h : ∀ bs rest, rest.length + len = src.length → bs.length = len → Q bs rest) :
    Wp limit (copyToVec len) Q src :=
  (Wp.reserve hlimit (.take hlen h)).bind

theorem Wp.readExact {len : Nat} (hsrc : src.length ≤ limit)
    (h : ∀ bs rest, rest.length + len = src.length → bs.length = len → Q bs rest) :
    Wp limit (readExact len) Q src := by
  refine (Wp.remaining ?_).bind
  refine (Wp.ensure fun hlen => ?_).bind
  exact Wp.copyToVec hlen (hlen.trans hsrc) h

theorem Wp.getBytes {Q : Option Bytes → Bytes → Prop} (hsrc : src.length ≤ limit)
    (h : ∀ bs rest, rest.length ≤ src.length → (bs.getD []).length ≤ src.length → Q bs rest) :
    Wp limit getBytes Q src := by
  refine (Wp.remaining ?_).bind
  refine (Wp.ensure fun hfour => ?_).bind
  refine (Wp.number hfour fun len rest hrest => ?_).bind
  split_ifs with hnull
  · exact Wp.pure (h none rest (by omega) (by simp))
  · refine (Wp.remaining ?_).bind
    refine (Wp.ensure fun hlen => ?_).bind
    refine (Wp.copyToVec hlen (by omega) fun bs rest' hrest' hbs => ?_).bind
    exact Wp.pure (h (some bs) rest' (by omega) (by rw [Option.getD_some]; omega))

end

/-! ## Frames -/

/-- The frames that the loop gets to see. -/
def frames (least : Nat) (src : Bytes) : List Bytes :=
  if src.length < least then []
  else
    match _hhead : (frameHead src).result with
    | .error _ => []
    | .ok (size, rest) =>
      if size < 0 ∨ rest.length < asUsize size then []
      else rest.take (asUsize size) :: frames least (rest.drop (asUsize size))
termination_by src.length
decreasing_by
  have hlength := length_of_frameHead _hhead
  rw [length_drop]
  omega

/-- The property holds of the first frame, and of each one that is reached after it. -/
def EachReached (p : Bytes → Prop) (d : Decoder α) : List Bytes → Prop
  | [] => True
  | frame :: rest => p frame ∧ ((∃ r, (d frame).result = .ok r) → EachReached p d rest)

theorem EachReached.of_forall (h : ∀ frame, p frame) (l : List Bytes) : EachReached p d l := by
  induction l with
  | nil => trivial
  | cons frame rest ih => exact ⟨h frame, fun _ => ih⟩

/-- With twelve bytes there is a head. -/
theorem exists_frameHead (src : Bytes) (h : 12 ≤ src.length) :
    ∃ size rest, frameHead src = ⟨[], .ok (size, rest)⟩ := by
  have htake (n : Nat) (src : Bytes) (hn : n ≤ src.length) :
      Decoder.take n src = ⟨[], .ok (src.take n, src.drop n)⟩ := if_neg (Nat.not_lt.mpr hn)
  simp only [frameHead, getI64, getI32, bind, pure, Outcome.andThen]
  rw [htake 8 src (by omega)]
  dsimp only
  rw [htake 4 _ (by rw [length_drop]; omega)]
  exact ⟨_, _, rfl⟩

section

variable {least : Nat} {negative : String} {d : Decoder (List α)} {src rest : Bytes} {size : Int32}

theorem frameLoop_of_head (out : List α) (hlong : ¬ src.length < least)
    (hhead : frameHead src = ⟨[], .ok (size, rest)⟩) : frameLoop least negative d out src =
      if size < 0 then ⟨[], .error (.err (.protocol negative))⟩
      else if rest.length < asUsize size then ⟨[], .ok out⟩
      else (d (rest.take (asUsize size))).andThen fun r =>
        frameLoop least negative d (out ++ r.1) (rest.drop (asUsize size)) := by
  have hok : (frameHead src).result = .ok (size, rest) := by rw [hhead]
  rw [frameLoop, if_neg hlong]
  split
  next stop hstop => cases hok.symm.trans hstop
  next size' rest' hok' =>
    cases hok.symm.trans hok'
    rw [hhead]

theorem frames_of_head (hlong : ¬ src.length < least)
    (hhead : frameHead src = ⟨[], .ok (size, rest)⟩) :
    frames least src = if size < 0 ∨ rest.length < asUsize size then []
      else rest.take (asUsize size) :: frames least (rest.drop (asUsize size)) := by
  have hok : (frameHead src).result = .ok (size, rest) := by rw [hhead]
  rw [frames, if_neg hlong]
  split
  next stop hstop => cases hok.symm.trans hstop
  next size' rest' hok' =>
    cases hok.symm.trans hok'
    rfl

end

/-- The loop is harmless if every frame that it reaches is. -/
theorem harmless_frameLoop_iff {least : Nat} {negative : String} {d : Decoder (List α)}
    (hleast : 12 ≤ least) (out : List α)
    (hframe : ∀ frame, frame.length ≤ src.length → (Harmless limit (d frame) ↔ p frame)) :
    Harmless limit (frameLoop least negative d out src) ↔ EachReached p d (frames least src) := by
  induction hn : src.length using Nat.strongRecOn generalizing src out with
  | ind n ih =>
    by_cases hshort : src.length < least
    · rw [frameLoop, frames, if_pos hshort, if_pos hshort]
      exact iff_of_true Harmless.of_ok trivial
    obtain ⟨size, rest, hhead⟩ := exists_frameHead src (by omega)
    have hlength := length_of_frameHead (congrArg Outcome.result hhead)
    rw [frameLoop_of_head out hshort hhead, frames_of_head hshort hhead]
    by_cases hneg : size < 0
    · rw [if_pos hneg, if_pos (.inl hneg)]
      exact iff_of_true Harmless.of_err trivial
    by_cases hpart : rest.length < asUsize size
    · rw [if_neg hneg, if_pos hpart, if_pos (.inr hpart)]
      exact iff_of_true Harmless.of_ok trivial
    rw [if_neg hneg, if_neg hpart, if_neg (not_or.mpr ⟨hneg, hpart⟩), Harmless.andThen_iff,
      hframe _ (by rw [length_take]; omega)]
    have hnext (out' : List α) := ih (rest.drop (asUsize size)).length
      (by rw [length_drop]; omega) out'
      (fun frame hlen => hframe frame (by rw [length_drop] at hlen; omega)) rfl
    exact and_congr_right fun _ => ⟨fun h ⟨r, hr⟩ => (hnext _).mp (h r hr),
      fun h r hr => (hnext _).mpr (h ⟨r, hr⟩)⟩

/-! ## Message sets -/

/-- What is decompressed is at most `ratio` times as long as what it came from. -/
def Crates.Expands (lib : Crates) (ratio : Nat) : Prop :=
  ∀ codec data plain, lib.decompress codec data = .ok plain → plain.length ≤ ratio * data.length

theorem wp_messageTimestamp {magic : Int8} :
    Wp limit (messageTimestamp magic) (fun _ rest => rest.length ≤ src.length) src := by
  unfold messageTimestamp
  split_ifs with hone hzero
  · refine (Wp.remaining ?_).bind
    refine (Wp.ensure fun height => ?_).bind
    exact (Wp.number height fun ts rest hrest => by omega).map
  · exact Wp.pure le_rfl
  · exact Wp.fail

theorem harmless_decodeMessage (hratio : lib.Expands ratio)
    {nested : Option (Bytes → Outcome (List Message))} (hsrc : src.length ≤ limit)
    (hnested : ∀ f, nested = some f → ∀ plain : Bytes, plain.length ≤ ratio * src.length →
      Harmless limit (f plain)) : Harmless limit (decodeMessage lib nested src) := by
  suffices h : Wp limit (decodeMessage lib nested) (fun _ _ => True) src from h.1
  refine (Wp.remaining ?_).bind
  refine (Wp.ensure fun hsix => ?_).bind
  refine (Wp.number (by omega) fun crc rest hrest => ?_).bind
  refine (Wp.chunk ?_).bind
  refine (Wp.ensure fun _ => ?_).bind
  refine (Wp.number (by omega) fun magic rest₁ hrest₁ => ?_).bind
  refine (Wp.number (by omega) fun attributes rest₂ hrest₂ => ?_).bind
  refine (wp_messageTimestamp.mono fun ts rest₃ hrest₃ => ?_).bind
  refine (Wp.getBytes (by omega) fun key rest₄ hrest₄ _ => ?_).bind
  refine (Wp.getBytes (by omega) fun value rest₅ hrest₅ hvalue => ?_).bind
  refine (Wp.lift fun codec _ => ?_).bind
  split_ifs with hcodec
  · exact Wp.pure trivial
  · split
    next => exact Wp.fail
    next f =>
      refine (Wp.lift fun plain hplain => ?_).bind
      have hlen : plain.length ≤ ratio * src.length :=
        (hratio _ _ _ hplain).trans (Nat.mul_le_mul_left _ (by omega))
      exact ⟨Harmless.andThen_iff.mpr ⟨hnested f rfl plain hlen, fun _ _ => Harmless.of_ok⟩,
        fun _ _ _ => trivial⟩

/-- A message set is harmless however it nests. -/
theorem harmless_decodeMessageSetDepth (hpos : 1 ≤ ratio) (hratio : lib.Expands ratio)
    {levels : Nat} {data : Bytes} (hlimit : ratio ^ levels * data.length ≤ limit) :
    Harmless limit (decodeMessageSetDepth lib levels data) := by
  have hdata : data.length ≤ limit :=
    (Nat.le_mul_of_pos_left _ (Nat.pow_pos hpos)).trans hlimit
  induction levels generalizing data with
  | zero =>
    rw [decodeMessageSetDepth, harmless_frameLoop_iff (p := fun _ => True) (by decide)]
    · exact EachReached.of_forall (fun _ => trivial) _
    · exact fun frame hlen => iff_of_true
        (harmless_decodeMessage hratio (hlen.trans hdata) nofun) trivial
  | succ levels ih =>
    rw [decodeMessageSetDepth, harmless_frameLoop_iff (p := fun _ => True) (by decide)]
    · exact EachReached.of_forall (fun _ => trivial) _
    · refine fun frame hlen => iff_of_true
        (harmless_decodeMessage hratio (hlen.trans hdata) ?_) trivial
      rintro f hf plain hplain
      cases hf
      have hle : ratio ^ levels * plain.length ≤ limit :=
        calc ratio ^ levels * plain.length
          _ ≤ ratio ^ levels * (ratio * data.length) :=
            Nat.mul_le_mul_left _ (hplain.trans (Nat.mul_le_mul_left _ hlen))
          _ = ratio ^ (levels + 1) * data.length := by rw [Nat.pow_succ, Nat.mul_assoc]
          _ ≤ limit := hlimit
      exact ih hle ((Nat.le_mul_of_pos_left _ (Nat.pow_pos hpos)).trans hle)

/-! ## Record batches -/

/-- A checker walks over bytes and collects what must be true of them. It stops, without a further
demand, where the decoder returns an error. -/
def Checker (α : Type) := Bytes → Prop × Option (α × Bytes)

instance : Monad Checker where
  pure a := fun src => (True, some (a, src))
  bind k f := fun src =>
    match (k src).2 with
    | none => ((k src).1, none)
    | some (a, rest) => ((k src).1 ∧ (f a rest).1, (f a rest).2)

namespace Checker

/-- Goes on as the decoder does, where the bytes must have the property. -/
def given (p : Bytes → Prop) (d : Decoder α) : Checker α := fun src =>
  (p src, (d src).result.toOption)

/-- Goes on as the decoder does, without a demand. -/
def free (d : Decoder α) : Checker α := given (fun _ => True) d

def on (bytes : Bytes) (k : Checker α) : Checker α := fun src =>
  ((k bytes).1, (k bytes).2.map fun r => (r.1, src))

def times (n : Nat) (k : Checker α) : Checker (List α) :=
  match n with
  | 0 => pure []
  | n + 1 => do
    let a ← k
    let as ← times n k
    pure (a :: as)

end Checker

/-- The varint at the front ends within five bytes, or the bytes do. -/
def ShortVarint (src : Bytes) : Prop := src.length ≤ 5 ∨ ∃ b ∈ src.take 5, b.toNat < 128

instance (src : Bytes) : Decidable (ShortVarint src) := inferInstanceAs (Decidable (_ ∨ _))

open Checker

variable {k : Checker α}

/-- A varint, which must be short. -/
def trustVarint : Checker Int32 := given ShortVarint readVarint

/-- A capacity, which must be within the limit. -/
def trustCapacity (limit n : Nat) : Checker Unit := given (fun _ => n ≤ limit) (reserve n)

def trustRecordHeader : Checker (String × Bytes) := do
  let hkLen ← trustVarint
  free (ensure (0 ≤ hkLen) "negative header key len")
  let hk ← free (readExact (asUsize hkLen))
  let hk ← free (lift (stringFromUtf8 hk "header key utf8"))
  let hvLen ← trustVarint
  let hv ← free (readOrEmpty hvLen)
  pure (hk, hv)

/-- The varints must be short, there must be a byte of attributes behind the length, and the number
of headers must be within the limit. -/
def trustRecord (limit : Nat) (firstTimestamp : Int64) : Checker Message := do
  let length ← trustVarint
  free (ensure (0 ≤ length) "negative record length")
  let rem ← free remaining
  free (ensure (asUsize length ≤ rem) "truncated record body")
  let _attributes ← given (· ≠ []) getI8
  let timestampDelta ← trustVarint
  let _offsetDelta ← trustVarint
  let keyLen ← trustVarint
  let key ← free (readNullable keyLen)
  let valueLen ← trustVarint
  let value ← free (readOrEmpty valueLen)
  let headerCount ← trustVarint
  free (ensure (0 ≤ headerCount) "negative header count")
  trustCapacity limit (asUsize headerCount)
  let headers ← Checker.times (asUsize headerCount) trustRecordHeader
  pure { key := key
         value := value
         timestampMs := some (saturatingAddI64 firstTimestamp timestampDelta.toInt64)
         headers := headers }

/-- The number of records must be within the limit, and the records must be trusted. -/
def trustBatch (lib : Crates) (limit : Nat) : Checker DecodedRecordBatch := do
  let h ← free (decodeBatchHeader lib)
  trustCapacity limit (asUsize h.recordsCount)
  let messages ← Checker.on h.recordsBytes
    (Checker.times (asUsize h.recordsCount) (trustRecord limit h.firstTimestamp))
  pure { producer := h.producer, messages := messages }

/-- The checker demands what makes the decoder harmless, and goes on as it does. -/
def Matches (limit : Nat) (d : Decoder α) (k : Checker α) : Prop :=
  ∀ src, src.length ≤ limit →
    (Harmless limit (d src) ↔ (k src).1) ∧ (d src).result.toOption = (k src).2 ∧
      ∀ a rest, (d src).result = .ok (a, rest) → rest.length ≤ limit

theorem Matches.bind {g : α → Checker β} (h : Matches limit d k)
    (hf : ∀ a, Matches limit (f a) (g a)) : Matches limit (d >>= f) (k >>= g) := by
  intro src hsrc
  obtain ⟨hiff, hresult, hlength⟩ := h src hsrc
  simp only [Bind.bind, Harmless.andThen_iff, hiff, ← hresult]
  cases hd : (d src).result with
  | error stop => exact ⟨by simp [Except.toOption], by simp [Outcome.andThen, hd, Except.toOption],
      by simp [Outcome.andThen, hd]⟩
  | ok r =>
    obtain ⟨a, rest⟩ := r
    obtain ⟨hiff', hresult', hlength'⟩ := hf a rest (hlength a rest hd)
    exact ⟨by simp [Except.toOption, hiff'], by simpa [Outcome.andThen, hd, Except.toOption] using hresult',
      by simpa [Outcome.andThen, hd] using hlength'⟩

theorem Matches.given (hiff : ∀ src, src.length ≤ limit → (Harmless limit (d src) ↔ p src))
    (hlength : ∀ src a rest, (d src).result = .ok (a, rest) → rest.length ≤ src.length) :
    Matches limit d (given p d) :=
  fun src hsrc => ⟨hiff src hsrc, rfl, fun a rest hresult => (hlength src a rest hresult).trans hsrc⟩

/-- A decoder that is harmless by itself needs no demand. -/
theorem Matches.free
    (h : ∀ src, src.length ≤ limit → Wp limit d (fun _ rest => rest.length ≤ limit) src) :
    Matches limit d (free d) :=
  fun src hsrc => ⟨iff_of_true (h src hsrc).1 trivial, rfl, (h src hsrc).2⟩

theorem Matches.pure (a : α) : Matches limit (pure a) (pure a) := by
  refine fun src hsrc => ⟨iff_of_true Harmless.of_ok trivial, rfl, fun b rest hresult => ?_⟩
  cases hresult
  exact hsrc

theorem Matches.times (h : Matches limit d k) (n : Nat) :
    Matches limit (times n d) (times n k) := by
  induction n with
  | zero => exact Matches.pure []
  | succ n ih => exact h.bind fun a => ih.bind fun as => Matches.pure (a :: as)

theorem Matches.on (h : Matches limit d k) {bytes : Bytes} (hbytes : bytes.length ≤ limit) :
    Matches limit (on bytes d) (on bytes k) := by
  intro src hsrc
  obtain ⟨hiff, hresult, -⟩ := h bytes hbytes
  refine ⟨?_, ?_, ?_⟩
  · rw [Decoder.on, Harmless.andThen_iff, hiff]
    exact and_iff_left fun r _ => Harmless.of_ok
  · rw [Checker.on, ← hresult, Decoder.on, Outcome.andThen]
    cases (d bytes).result with
    | error stop => rfl
    | ok r => rfl
  · rw [Decoder.on, Outcome.andThen]
    intro a rest hok
    split at hok <;> cases hok
    exact hsrc

theorem and_high_bit (b : UInt8) : b &&& 0x80 = 0 ↔ b.toNat < 128 := by
  have hall : ∀ n : Fin 256, n.val &&& 128 = 0 ↔ n.val < 128 := by decide +kernel
  rw [← UInt8.toNat_inj]
  exact hall ⟨b.toNat, b.toNat_lt⟩

/-- The loop has room for `n` more bytes. -/
theorem harmless_readVarintLoop_iff {k : Nat} (hk : k + n = 5) (result : UInt32) (src : Bytes) :
    Harmless limit (readVarintLoop (7 * k) result src) ↔
      src.length ≤ n ∨ ∃ b ∈ src.take n, b.toNat < 128 := by
  induction n generalizing k result src with
  | zero =>
    obtain rfl : k = 5 := by omega
    cases src with
    | nil => exact iff_of_true Harmless.of_err (.inl (Nat.le_refl 0))
    | cons b rest => simp [readVarintLoop, Harmless]
  | succ n ih =>
    cases src with
    | nil => exact iff_of_true Harmless.of_err (.inl (by simp))
    | cons b rest =>
      rw [readVarintLoop, if_neg (by omega)]
      by_cases hlast : b.toNat < 128
      · rw [if_pos ((and_high_bit b).mpr hlast)]
        exact iff_of_true Harmless.of_ok (.inr ⟨b, by simp, hlast⟩)
      · rw [if_neg (mt (and_high_bit b).mp hlast), if_neg (by omega)]
        have hnext := ih (k := k + 1) (by omega)
          (result ||| ((b &&& 0x7f).toUInt32 <<< UInt32.ofNat (7 * k))) rest
        rw [Nat.mul_add] at hnext
        rw [hnext, length_cons, Nat.succ_le_succ_iff]
        simp [hlast]

theorem length_readVarintLoop {shift : Nat} {result n : UInt32} {rest : Bytes}
    (h : (readVarintLoop shift result src).result = .ok (n, rest)) : rest.length ≤ src.length := by
  induction src generalizing shift result with
  | nil => cases h
  | cons b src ih =>
    rw [readVarintLoop] at h
    split_ifs at h with hshift hlast hlong
    · cases h
      simp
    · have hle := ih h
      rw [length_cons]
      omega

theorem matches_readVarint : Matches limit readVarint trustVarint := by
  refine Matches.given (fun src _ => ?_) fun src a rest hresult => ?_
  · rw [readVarint]
    refine Harmless.andThen_iff.trans ?_
    rw [harmless_readVarintLoop_iff (n := 5) rfl]
    exact and_iff_left fun r _ => Harmless.of_ok
  · obtain ⟨n, rest', hloop, hpure⟩ := result_bind.mp hresult
    cases hpure
    exact length_readVarintLoop hloop

theorem matches_reserve (n : Nat) : Matches limit (reserve n) (trustCapacity limit n) := by
  refine Matches.given (fun src _ => ?_) fun src a rest hresult => ?_
  · simp [Harmless, reserve]
  · cases hresult
    rfl

theorem matches_getI8 : Matches limit getI8 (given (· ≠ []) getI8) := by
  refine Matches.given (fun src _ => ?_) fun src a rest hresult => ?_
  · cases src with
    | nil => simp [getI8, Harmless, Bind.bind, Outcome.andThen, Decoder.take]
    | cons b src =>
      exact iff_of_true (Wp.number (Q := fun _ _ => True) (by simp) fun _ _ _ => trivial).1 (by simp)
  · obtain ⟨n, rest', htake, hpure⟩ := result_bind.mp hresult
    cases hpure
    rw [(result_take.mp htake).2.2, length_drop]
    omega

theorem matches_ensure {ok : Prop} [Decidable ok] (msg : String) :
    Matches limit (ensure ok msg) (free (ensure ok msg)) :=
  Matches.free fun _ hsrc => Wp.ensure fun _ => hsrc

theorem matches_readExact (len : Nat) : Matches limit (readExact len) (free (readExact len)) :=
  Matches.free fun _ hsrc => Wp.readExact hsrc fun _ _ hrest _ => by omega

theorem matches_readOrEmpty (len : Int32) : Matches limit (readOrEmpty len) (free (readOrEmpty len)) := by
  refine Matches.free fun src hsrc => ?_
  unfold readOrEmpty
  split_ifs
  · exact Wp.pure hsrc
  · exact Wp.readExact hsrc fun _ _ hrest _ => by omega

theorem matches_readNullable (len : Int32) :
    Matches limit (readNullable len) (free (readNullable len)) := by
  refine Matches.free fun src hsrc => ?_
  unfold readNullable
  split_ifs
  · exact Wp.pure hsrc
  · exact Wp.map (Wp.readExact hsrc fun _ _ hrest _ => by omega)

theorem matches_decodeRecordHeader : Matches limit decodeRecordHeader trustRecordHeader := by
  refine matches_readVarint.bind fun hkLen => ?_
  refine (matches_ensure _).bind fun _ => ?_
  refine (matches_readExact _).bind fun hk => ?_
  refine (Matches.free fun src hsrc => Wp.lift fun _ _ => hsrc).bind fun hk => ?_
  refine matches_readVarint.bind fun hvLen => ?_
  exact (matches_readOrEmpty _).bind fun hv => Matches.pure _

theorem matches_decodeDefaultRecord (firstTimestamp : Int64) :
    Matches limit (decodeDefaultRecord firstTimestamp) (trustRecord limit firstTimestamp) := by
  refine matches_readVarint.bind fun length => ?_
  refine (matches_ensure _).bind fun _ => ?_
  refine (Matches.free fun src hsrc => Wp.remaining hsrc).bind fun rem => ?_
  refine (matches_ensure _).bind fun _ => ?_
  refine matches_getI8.bind fun _ => ?_
  refine matches_readVarint.bind fun timestampDelta => ?_
  refine matches_readVarint.bind fun _ => ?_
  refine matches_readVarint.bind fun keyLen => ?_
  refine (matches_readNullable _).bind fun key => ?_
  refine matches_readVarint.bind fun valueLen => ?_
  refine (matches_readOrEmpty _).bind fun value => ?_
  refine matches_readVarint.bind fun headerCount => ?_
  refine (matches_ensure _).bind fun _ => ?_
  refine (matches_reserve _).bind fun _ => ?_
  exact (matches_decodeRecordHeader.times _).bind fun headers => Matches.pure _

/-- The header of a batch is read only when it is there. -/
theorem wp_decodeBatchHeader (hratio : lib.Expands ratio) (hpos : 1 ≤ ratio)
    (hlimit : ratio * src.length ≤ limit) : Wp limit (decodeBatchHeader lib)
      (fun h rest => h.recordsBytes.length ≤ limit ∧ rest.length ≤ src.length) src := by
  refine (Wp.remaining ?_).bind
  refine (Wp.ensure fun hlen => ?_).bind
  refine (Wp.number (by omega) fun _ rest₁ hrest₁ => ?_).bind
  refine (Wp.number (by omega) fun magic rest₂ hrest₂ => ?_).bind
  refine (Wp.ensure fun _ => ?_).bind
  refine (Wp.number (by omega) fun crc rest₃ hrest₃ => ?_).bind
  refine (Wp.chunk ?_).bind
  refine (Wp.ensure fun _ => ?_).bind
  refine (Wp.number (by omega) fun attributes rest₄ hrest₄ => ?_).bind
  refine (Wp.lift fun codec _ => ?_).bind
  refine (Wp.number (by omega) fun _ rest₅ hrest₅ => ?_).bind
  refine (Wp.number (by omega) fun firstTimestamp rest₆ hrest₆ => ?_).bind
  refine (Wp.number (by omega) fun _ rest₇ hrest₇ => ?_).bind
  refine (Wp.number (by omega) fun producerId rest₈ hrest₈ => ?_).bind
  refine (Wp.number (by omega) fun producerEpoch rest₉ hrest₉ => ?_).bind
  refine (Wp.number (by omega) fun baseSequence rest₁₀ hrest₁₀ => ?_).bind
  refine (Wp.number (by omega) fun recordsCount rest₁₁ hrest₁₁ => ?_).bind
  refine (Wp.ensure fun _ => ?_).bind
  refine (Wp.chunk ?_).bind
  refine (Wp.lift fun recordsBytes hbytes => ?_).bind
  refine Wp.pure ⟨?_, by omega⟩
  have hle : rest₁₁.length ≤ src.length := by omega
  unfold plainRecords at hbytes
  split_ifs at hbytes with hcodec
  · cases hbytes
    exact (hle.trans (Nat.le_mul_of_pos_left _ hpos)).trans hlimit
  · exact ((hratio _ _ _ hbytes).trans (Nat.mul_le_mul_left _ hle)).trans hlimit

/-- A batch is harmless if it is trusted. -/
theorem harmless_decodeOneRecordBatch_iff (hpos : 1 ≤ ratio) (hratio : lib.Expands ratio)
    (hlimit : ratio * src.length ≤ limit) :
    Harmless limit (decodeOneRecordBatch lib src) ↔ (trustBatch lib limit src).1 := by
  obtain ⟨hharmless, hpost⟩ := wp_decodeBatchHeader hratio hpos hlimit
  have hsrc : src.length ≤ limit := (Nat.le_mul_of_pos_left _ hpos).trans hlimit
  rw [trustBatch]
  refine Harmless.andThen_iff.trans ?_
  rw [and_iff_right hharmless]
  simp only [Bind.bind, free, given]
  cases hresult : (decodeBatchHeader lib src).result with
  | error stop => simp [Except.toOption]
  | ok r =>
    obtain ⟨h, rest⟩ := r
    obtain ⟨hbytes, hrest⟩ := hpost h rest hresult
    have hrecords := ((matches_decodeDefaultRecord h.firstTimestamp).times
      (asUsize h.recordsCount)).on hbytes
    have hmatches := (matches_reserve (asUsize h.recordsCount)).bind fun _ =>
      hrecords.bind fun messages =>
        Matches.pure ({ producer := h.producer, messages := messages } : DecodedRecordBatch)
    have hiff := (hmatches rest (hrest.trans hsrc)).1
    simp only [Except.ok.injEq, forall_eq', Except.toOption, true_and]
    exact hiff

/-- What the decoder trusts in produced bytes: nothing in a message set, the batches in the other
format. -/
def Trusted (lib : Crates) (limit : Nat) (data : Bytes) : Prop :=
  data[16]? = some 2 → EachReached (fun batch => (trustBatch lib limit batch).1)
    (decodeOneRecordBatch lib) (frames 61 data)

theorem EachReached.map_iff {f : α → β} (l : List Bytes) :
    EachReached p (f <$> d) l ↔ EachReached p d l := by
  induction l with
  | nil => rfl
  | cons frame rest ih =>
    have hresult : (∃ r, ((f <$> d) frame).result = .ok r) ↔ ∃ r, (d frame).result = .ok r := by
      simp only [Functor.map, Outcome.andThen]
      cases (d frame).result with
      | error stop => simp
      | ok r => exact iff_of_true ⟨_, rfl⟩ ⟨_, rfl⟩
    simp [EachReached, hresult, ih]

/-- The decoder is harmless on exactly the bytes that deserve its trust. The limit is any multiple
of the number of bytes that leaves room for what decompression can make of them. -/
theorem decodeProduceBatches_harmless_iff {lib : Crates} {ratio factor : Nat} (hpos : 1 ≤ ratio)
    (hratio : lib.Expands ratio) (hfactor : ratio ^ maxMessageSetCompressionDepth ≤ factor)
    (data : Bytes) : Harmless (factor * data.length) (decodeProduceBatches lib data) ↔
      Trusted lib (factor * data.length) data := by
  unfold decodeProduceBatches Trusted
  split_ifs with hempty
  · rw [List.isEmpty_iff] at hempty
    subst hempty
    exact iff_of_true Harmless.of_ok nofun
  split
  next hnone => exact iff_of_true Harmless.of_err (by rw [hnone]; nofun)
  next magic hmagic =>
    rw [hmagic]
    split_ifs with hold hnew
    · have hset : Harmless (factor * data.length) (decodeMessageSet lib data) :=
        harmless_decodeMessageSetDepth hpos hratio (Nat.mul_le_mul_right _ hfactor)
      refine iff_of_true (Harmless.andThen_iff.mpr ⟨hset, fun _ _ => Harmless.of_ok⟩) ?_
      rintro hsome
      cases hsome
      exact absurd hold (by decide)
    · subst hnew
      have hone : ratio ≤ factor := (Nat.le_self_pow (by decide) ratio).trans hfactor
      rw [decodeRecordBatchesDetailed, harmless_frameLoop_iff
        (p := fun batch => (trustBatch lib (factor * data.length) batch).1) (by decide)]
      · rw [EachReached.map_iff]
        simp
      · intro frame hlen
        have hlimit : ratio * frame.length ≤ factor * data.length := Nat.mul_le_mul hone hlen
        rw [← harmless_decodeOneRecordBatch_iff hpos hratio hlimit]
        refine Harmless.andThen_iff.trans ?_
        exact and_iff_left fun _ _ => Harmless.of_ok
    · refine iff_of_true Harmless.of_err ?_
      rintro hsome
      cases hsome
      exact absurd rfl hnew

theorem xerialBlocks_expands {ratio : Nat} (hblock : ∀ data plain,
      lib.snappy.decode data = .ok plain → plain.length ≤ ratio * data.length) {fuel : Nat}
    {data plain : Bytes} (h : lib.xerialBlocks fuel data = .ok plain) :
    plain.length ≤ ratio * data.length := by
  induction fuel generalizing data plain with
  | zero =>
    obtain rfl := Except.ok.inj h
    exact Nat.zero_le _
  | succ fuel ih =>
    unfold Crates.xerialBlocks at h
    split at h
    · obtain rfl := Except.ok.inj h
      exact Nat.zero_le _
    split at h
    · cases h
    next hfour hfits =>
      obtain ⟨piece, hpiece, h⟩ := Exec.except_bind_ok.mp h
      obtain ⟨out, hrest, h⟩ := Exec.except_bind_ok.mp h
      obtain rfl := Except.ok.inj h
      have hfirst := hblock _ _ (labelled_ok.mp hpiece)
      have hlater := ih hrest
      generalize BigEndian.decode (data.take 4) = compLen at hfirst hlater
      rw [length_append]
      calc piece.length + out.length
          ≤ ratio * ((data.drop 4).take compLen).length +
            ratio * ((data.drop 4).drop compLen).length := Nat.add_le_add hfirst hlater
        _ = ratio * (data.drop 4).length := by
            rw [← Nat.mul_add, ← length_append, take_append_drop]
        _ ≤ ratio * data.length :=
            Nat.mul_le_mul_left _ (by rw [length_drop]; exact Nat.sub_le _ _)

theorem storedCrates_expands : storedCrates.Expands 1 := by
  have hstored {data plain : Bytes} (h : (.ok data : Except String Bytes) = .ok plain) :
      plain.length ≤ 1 * data.length := by
    rw [Except.ok.inj h, Nat.one_mul]
  intro codec data plain h
  cases codec with
  | none =>
    obtain rfl := Except.ok.inj h
    omega
  | gzip | zstd => exact hstored (labelled_ok.mp h)
  | lz4 =>
    obtain rfl := Except.ok.inj h
    omega
  | snappy =>
    simp only [Crates.decompress, Crates.snappyDecompress] at h
    split at h
    · split at h
      · cases h
      · have hlen : plain.length ≤ 1 * (data.drop 16).length :=
          xerialBlocks_expands (fun _ _ => hstored) h
        rw [length_drop] at hlen
        omega
    · exact hstored (labelled_ok.mp h)

/-- A batch of a producer without an id, with a record count and the bytes of the records. -/
def rawBatch (count : Nat) (records : Bytes) : Bytes :=
  let crcPayload := encode 2 0 ++ encode 4 0 ++ encode 8 0 ++
    encode 8 0 ++ encode 8 u64Max ++ encode 2 u16Max ++
    encode 4 u32Max ++ encode 4 count ++ records
  encode 8 0 ++ encode 4 (9 + crcPayload.length) ++
    encode 4 u32Max ++ [2] ++
    encode 4 (storedCrates.crc32c crcPayload).toNat ++ crcPayload

/-- A batch with one record that holds the value `7`. -/
theorem decodeProduceBatches_harmless_seven :
    Trusted storedCrates (1 * (rawBatch 1 [14, 0, 0, 0, 1, 2, 7, 0]).length)
      (rawBatch 1 [14, 0, 0, 0, 1, 2, 7, 0]) :=
  (decodeProduceBatches_harmless_iff (by decide) storedCrates_expands (by decide) _).mp
    ⟨by decide +kernel, by decide +kernel⟩

/-- An empty record at the end of a batch and a varint of six bytes are panics, and an empty batch
of 61 bytes can reserve room for two thousand million records. -/
theorem decodeProduceBatches_hostile :
    (decodeProduceBatches storedCrates (rawBatch 1 [0])).result = .error .panic ∧
      (decodeProduceBatches storedCrates (rawBatch 1 [128, 128, 128, 128, 128, 0])).result =
        .error .panic ∧ (rawBatch (2 ^ 31 - 1) []).length = 61 ∧
      2 ^ 31 - 1 ∈ (decodeProduceBatches storedCrates (rawBatch (2 ^ 31 - 1) [])).reserved := by
  refine ⟨by decide +kernel, by decide +kernel, by decide +kernel, by decide +kernel⟩

end Volant.Kafka
