import GraphAgent.Library.Rounding
import Mathlib.Data.List.GetD
import Mathlib.Data.Rat.Floor

/-!
# Resampling the audio of a call

`resample_pcm16`, with positions and interpolation as exact rationals: how many samples it
returns, and between which samples of the input each of them lies.
-/

namespace GraphAgent.Voice

section Samples

/-- `PCM16_SAMPLE_BYTES` -/
def pcm16SampleBytes : Nat := 2

/-- The sample of two bytes, the lower one first. -/
def sample (low high : UInt8) : Int16 := (UInt16.ofNat (low.toNat + 256 * high.toNat)).toInt16

/-- `samples.frombytes(data)` for whole samples. -/
def frombytes : List UInt8 → List Int16
  | low :: high :: rest => sample low high :: frombytes rest
  | _ => []

/-- The whole samples of the data. -/
def samplesOf (data : List UInt8) : List Int16 :=
  frombytes (data.take (data.length - data.length % pcm16SampleBytes))

/-- The two bytes of a sample, the lower one first. -/
def sampleBytes (value : Int16) : List UInt8 :=
  [UInt8.ofNat (value.toUInt16.toNat % 256), UInt8.ofNat (value.toUInt16.toNat / 256)]

/-- `result.tobytes()` -/
def tobytes (samples : List Int16) : List UInt8 := samples.flatMap sampleBytes

end Samples

section Resample

/-- What `resample_pcm16` can raise. -/
inductive ResampleError where
  /-- `division by zero` -/
  | zeroDivision
  /-- `array index out of range` -/
  | index
  /-- `signed short integer is out of range` -/
  | overflow
  deriving DecidableEq, Repr

/-- `left / right` for integers. -/
def divide (left right : Int) : Except ResampleError ℚ :=
  if right = 0 then .error .zeroDivision else .ok (left / right)

/-- `samples[index]`, where a negative index counts from the end. -/
def item (samples : List Int16) (index : Int) : Except ResampleError Int :=
  let index := if index < 0 then index + samples.length else index
  if index < 0 then .error .index
  else
    match samples[index.toNat]? with
    | some value => .ok value.toInt
    | none => .error .index

/-- What `result[index] = value` stores. -/
def store (value : Int) : Except ResampleError Int16 :=
  if -2 ^ 15 ≤ value ∧ value < 2 ^ 15 then .ok (Int16.ofInt value) else .error .overflow

/-- The sample that one turn of the loop stores. -/
def resampled (samples : List Int16) (step : ℚ) (index : Nat) : Except ResampleError Int16 := do
  let last : Int := samples.length - 1
  let position := index * step
  let left := Rounding.truncate position
  if last ≤ left then
    store (← item samples last)
  else
    let fraction := position - left
    let before ← item samples left
    let after ← item samples (left + 1)
    store (Rounding.truncate (before * (1 - fraction) + after * fraction))

/-- `resample_pcm16` -/
def resamplePcm16 (data : List UInt8) (srcRate dstRate : Int) :
    Except ResampleError (List UInt8) := do
  if srcRate = dstRate ∨ data = [] then
    return data
  let samples := samplesOf data
  let count := samples.length
  if count = 0 then
    return []
  let outCount := max 1 (Rounding.halfEven (← divide (count * dstRate) srcRate))
  let step ← divide srcRate dstRate
  let result ← (List.range outCount.toNat).mapM (resampled samples step)
  return tobytes result

example : resamplePcm16 (tobytes [0, 1000]) 8000 16000 = .ok (tobytes [0, 500, 1000, 1000]) := by
  decide +kernel

end Resample

section Bytes

@[simp] theorem frombytes_cons_cons (low high : UInt8) (rest : List UInt8) :
    frombytes (low :: high :: rest) = sample low high :: frombytes rest := rfl

theorem length_frombytes (data : List UInt8) : (frombytes data).length = data.length / 2 := by
  induction data using frombytes.induct with
  | case1 low high rest ih =>
      rw [frombytes_cons_cons, List.length_cons, ih, List.length_cons, List.length_cons]
      omega
  | case2 data h =>
      match data with
      | [] => simp [frombytes]
      | [_] => simp [frombytes]
      | low :: high :: rest => exact absurd rfl (h low high rest)

/-- The bytes of a sample are read as the sample. -/
theorem sample_sampleBytes (value : Int16) :
    sample (UInt8.ofNat (value.toUInt16.toNat % 256)) (UInt8.ofNat (value.toUInt16.toNat / 256)) =
      value := by
  have hlt : value.toUInt16.toNat < 2 ^ 16 := value.toUInt16.toNat_lt
  have hlow : (UInt8.ofNat (value.toUInt16.toNat % 256)).toNat = value.toUInt16.toNat % 256 :=
    UInt8.toNat_ofNat_of_lt' (Nat.mod_lt _ (by decide))
  have hhigh : (UInt8.ofNat (value.toUInt16.toNat / 256)).toNat = value.toUInt16.toNat / 256 :=
    UInt8.toNat_ofNat_of_lt' (Nat.div_lt_of_lt_mul hlt)
  rw [sample, hlow, hhigh, Nat.mod_add_div, UInt16.ofNat_toNat, Int16.toInt16_toUInt16]

theorem frombytes_tobytes_append (samples : List Int16) (rest : List UInt8) :
    frombytes (tobytes samples ++ rest) = samples ++ frombytes rest := by
  induction samples with
  | nil => rfl
  | cons value samples ih =>
      have hbytes : tobytes (value :: samples) ++ rest =
          UInt8.ofNat (value.toUInt16.toNat % 256) :: UInt8.ofNat (value.toUInt16.toNat / 256) ::
            (tobytes samples ++ rest) := rfl
      rw [hbytes, frombytes_cons_cons, sample_sampleBytes, ih, List.cons_append]

theorem frombytes_tobytes (samples : List Int16) : frombytes (tobytes samples) = samples := by
  have hnone : frombytes [] = [] := by simp [frombytes]
  have h := frombytes_tobytes_append samples []
  rwa [hnone, List.append_nil, List.append_nil] at h

theorem length_tobytes (samples : List Int16) : (tobytes samples).length = 2 * samples.length := by
  induction samples with
  | nil => rfl
  | cons value samples ih =>
      have hbytes : tobytes (value :: samples) = sampleBytes value ++ tobytes samples := rfl
      have hlength : (sampleBytes value).length = 2 := rfl
      rw [hbytes, List.length_append, ih, hlength, List.length_cons]
      omega

theorem tobytes_append (front back : List Int16) :
    tobytes (front ++ back) = tobytes front ++ tobytes back := List.flatMap_append

end Bytes

section Reads

variable {samples : List Int16} {step : ℚ} {index : Nat}

theorem item_natCast {k : Nat} (h : k < samples.length) :
    item samples k = .ok samples[k].toInt := by
  have hnonneg : ¬ (k : Int) < 0 := by omega
  unfold item
  rw [if_neg hnonneg]
  dsimp only
  rw [if_neg hnonneg, Int.toNat_natCast, List.getElem?_eq_getElem h]

/-- A number between two samples can be stored. -/
theorem store_of_between {value : Int} {a b : Int16} (h : min a.toInt b.toInt ≤ value)
    (h' : value ≤ max a.toInt b.toInt) :
    ∃ stored, store value = .ok stored ∧ stored.toInt = value := by
  have ha := a.le_toInt
  have hb := b.le_toInt
  have ha' := a.toInt_lt
  have hb' := b.toInt_lt
  have hlow : -2 ^ 15 ≤ value := by omega
  have hhigh : value < 2 ^ 15 := by omega
  exact ⟨Int16.ofInt value, if_pos ⟨hlow, hhigh⟩, Int16.toInt_ofInt_of_le hlow hhigh⟩

/-- The indices that one turn of the loop reads at a position. -/
def readIndices (samples : List Int16) (position : ℚ) : List Int :=
  let last : Int := samples.length - 1
  let left := Rounding.truncate position
  if last ≤ left then [last] else [left, left + 1]

/-- A turn of the loop depends on no other samples. -/
theorem resampled_congr {samples' : List Int16} (hlength : samples'.length = samples.length)
    (h : ∀ read ∈ readIndices samples (index * step), item samples' read = item samples read) :
    resampled samples' step index = resampled samples step index := by
  unfold readIndices at h
  unfold resampled
  dsimp only at h ⊢
  rw [hlength]
  split at h
  case isTrue hlast =>
    rw [if_pos hlast, if_pos hlast, h _ List.mem_cons_self]
  case isFalse hlast =>
    rw [if_neg hlast, if_neg hlast, h _ List.mem_cons_self,
      h _ (List.mem_cons_of_mem _ List.mem_cons_self)]

/-- The sample at an index, or the last one behind it. -/
def neighbour (samples : List Int16) (k : Nat) : Int :=
  (samples.getD (min k (samples.length - 1)) 0).toInt

/-- What is to be expected of the sample for a position: it comes from samples that exist,
it lies between the two neighbours of the position, and at an index it is the sample there. -/
structure Interpolates (samples : List Int16) (position : ℚ) (value : Int16) : Prop where
  existing : ∀ read ∈ readIndices samples position, 0 ≤ read ∧ read < samples.length
  between : min (neighbour samples ⌊position⌋.toNat) (neighbour samples (⌊position⌋.toNat + 1)) ≤
      value.toInt ∧
    value.toInt ≤ max (neighbour samples ⌊position⌋.toNat)
      (neighbour samples (⌊position⌋.toNat + 1))
  whole : ∀ k (hk : k < samples.length), position = k → value = samples[k]

end Reads

section Loop

variable {samples : List Int16} {step : ℚ} {index : Nat}

theorem neighbour_of_lt {k : Nat} (h : k < samples.length) :
    neighbour samples k = samples[k].toInt := by
  have hmin : min k (samples.length - 1) = k := by omega
  rw [neighbour, hmin, List.getD_eq_getElem _ _ h]

theorem neighbour_of_last_le {k : Nat} (hne : samples ≠ []) (h : samples.length - 1 ≤ k) :
    neighbour samples k = (samples.getLast hne).toInt := by
  have hpos : 0 < samples.length := List.length_pos_iff.mpr hne
  have hlast : samples.length - 1 < samples.length := by omega
  rw [neighbour, Nat.min_eq_right h, List.getD_eq_getElem _ _ hlast, List.getLast_eq_getElem]

/-- Behind the last sample, the loop stores the last sample. -/
theorem resampled_of_last_le (hne : samples ≠ []) {k : Nat}
    (hleft : Rounding.truncate (index * step) = k) (h : samples.length - 1 ≤ k) :
    resampled samples step index = .ok (samples.getLast hne) := by
  have hpos : 0 < samples.length := List.length_pos_iff.mpr hne
  have hlast : samples.length - 1 < samples.length := by omega
  have hitem : item samples ((samples.length : Int) - 1) = .ok (samples.getLast hne).toInt := by
    rw [List.getLast_eq_getElem, ← item_natCast hlast]
    congr 1
    omega
  have hrange : store (samples.getLast hne).toInt = .ok (samples.getLast hne) := by
    rw [store, if_pos ⟨Int16.le_toInt _, Int16.toInt_lt _⟩, Int16.ofInt_toInt]
  unfold resampled
  dsimp only
  rw [hleft, if_pos (by omega), hitem]
  exact hrange

/-- Before the last sample, the loop stores what lies between two samples. -/
theorem resampled_of_lt {k : Nat} (hleft : Rounding.truncate (index * step) = k)
    (h : k + 1 < samples.length) (hlow : (k : ℚ) ≤ index * step)
    (hhigh : index * step ≤ (k + 1 : ℚ)) :
    ∃ value, resampled samples step index = .ok value ∧
      value.toInt = Rounding.truncate ((samples[k].toInt : ℚ) * (1 - (index * step - k)) +
        samples[k + 1].toInt * (index * step - k)) ∧
      min samples[k].toInt samples[k + 1].toInt ≤ value.toInt ∧
      value.toInt ≤ max samples[k].toInt samples[k + 1].toInt := by
  have hk : k < samples.length := by omega
  have hitem : item samples ((k : Int) + 1) = .ok samples[k + 1].toInt := item_natCast h
  have hbetween := Rounding.truncate_between (m := samples[k].toInt) (n := samples[k + 1].toInt)
    (sub_nonneg.mpr hlow) (sub_le_iff_le_add'.mpr hhigh)
  obtain ⟨value, hstore, hvalue⟩ := store_of_between hbetween.1 hbetween.2
  refine ⟨value, ?_, hvalue, ?_⟩
  · unfold resampled
    dsimp only
    rw [hleft, if_neg (by omega), item_natCast hk, hitem]
    exact hstore
  · rw [hvalue]
    exact hbetween

theorem readIndices_eq {position : ℚ} {k : Nat} (hne : samples ≠ [])
    (hleft : Rounding.truncate position = k) :
    readIndices samples position =
      if samples.length - 1 ≤ k then [((samples.length - 1 : Nat) : Int)]
      else [(k : Int), ((k + 1 : Nat) : Int)] := by
  have hpos : 0 < samples.length := List.length_pos_iff.mpr hne
  have hcast : ((samples.length - 1 : Nat) : Int) = samples.length - 1 := by omega
  unfold readIndices
  dsimp only
  rw [hleft, ← hcast]
  simp only [Nat.cast_le, Nat.cast_add, Nat.cast_one]

theorem eq_of_floor {position : ℚ} {j k : Nat} (hk : ⌊position⌋ = k) (hj : position = j) :
    j = k := by
  rw [hj, Int.floor_natCast] at hk
  exact_mod_cast hk

/-- Behind the last sample, the last sample is as expected. -/
theorem interpolates_of_last_le (hne : samples ≠ []) {position : ℚ} {k : Nat}
    (hk : ⌊position⌋ = k) (hleft : Rounding.truncate position = k)
    (hlast : samples.length - 1 ≤ k) :
    Interpolates samples position (samples.getLast hne) := by
  have hpos : 0 < samples.length := List.length_pos_iff.mpr hne
  have hneighbour := neighbour_of_last_le hne hlast
  have hnext := neighbour_of_last_le hne (hlast.trans (Nat.le_succ k))
  constructor
  · rw [readIndices_eq hne hleft, if_pos hlast]
    simp only [List.mem_singleton, forall_eq]
    omega
  · rw [hk, Int.toNat_natCast, hneighbour, hnext, min_self, max_self]
    exact ⟨le_rfl, le_rfl⟩
  · intro j hj hwhole
    obtain rfl := eq_of_floor hk hwhole
    have hend : j = samples.length - 1 := by omega
    subst hend
    exact List.getLast_eq_getElem hne

/-- Before the last sample, what lies between two samples is as expected. -/
theorem interpolates_of_lt {position : ℚ} {k : Nat} {value : Int16} (hk : ⌊position⌋ = k)
    (hleft : Rounding.truncate position = k) (hnext : k + 1 < samples.length)
    (hvalue : value.toInt = Rounding.truncate ((samples[k].toInt : ℚ) * (1 - (position - k)) +
      samples[k + 1].toInt * (position - k)))
    (hbetween : min samples[k].toInt samples[k + 1].toInt ≤ value.toInt ∧
      value.toInt ≤ max samples[k].toInt samples[k + 1].toInt) :
    Interpolates samples position value := by
  have hne : samples ≠ [] := List.length_pos_iff.mp (k.succ_pos.trans hnext)
  constructor
  · rw [readIndices_eq hne hleft, if_neg (by omega)]
    simp only [List.forall_mem_cons]
    exact ⟨by omega, by omega, nofun⟩
  · rw [hk, Int.toNat_natCast, neighbour_of_lt (k.lt_succ_self.trans hnext),
      neighbour_of_lt hnext]
    exact hbetween
  · intro j hj hwhole
    obtain rfl := eq_of_floor hk hwhole
    have hzero : (position - j : ℚ) = 0 := sub_eq_zero.mpr hwhole
    apply Int16.toInt.inj
    rw [hvalue, hzero, sub_zero, mul_one, mul_zero, add_zero, Rounding.truncate_intCast]

/-- A turn of the loop at a position that is not negative stores a sample as expected. -/
theorem resampled_interpolates (hne : samples ≠ []) (hposition : 0 ≤ index * step) :
    ∃ value, resampled samples step index = .ok value ∧
      Interpolates samples (index * step) value := by
  obtain ⟨k, hk⟩ : ∃ k : Nat, ⌊index * step⌋ = k :=
    ⟨⌊index * step⌋.toNat, (Int.toNat_of_nonneg (Int.floor_nonneg.mpr hposition)).symm⟩
  have hleft : Rounding.truncate (index * step) = k := by
    rw [Rounding.truncate_of_nonneg hposition, hk]
  by_cases hlast : samples.length - 1 ≤ k
  · exact ⟨samples.getLast hne, resampled_of_last_le hne hleft hlast,
      interpolates_of_last_le hne hk hleft hlast⟩
  · have hnext : k + 1 < samples.length := by omega
    have hlow : (k : ℚ) ≤ index * step := by
      have h := Int.floor_le (index * step)
      rwa [hk, Int.cast_natCast] at h
    have hhigh : index * step ≤ k + 1 := by
      have h := (Int.lt_floor_add_one (index * step)).le
      rwa [hk, Int.cast_natCast] at h
    obtain ⟨value, hresult, hvalue, hbetween⟩ := resampled_of_lt hleft hnext hlow hhigh
    exact ⟨value, hresult, interpolates_of_lt hk hleft hnext hvalue hbetween⟩

end Loop

section Output

theorem length_samplesOf (data : List UInt8) : (samplesOf data).length = data.length / 2 := by
  rw [samplesOf, length_frombytes, List.length_take, pcm16SampleBytes]
  omega

theorem samplesOf_tobytes (samples : List Int16) : samplesOf (tobytes samples) = samples := by
  have heven : (tobytes samples).length % pcm16SampleBytes = 0 := by
    rw [length_tobytes, pcm16SampleBytes]
    omega
  rw [samplesOf, heven, Nat.sub_zero, List.take_length, frombytes_tobytes]

/-- A loop none of whose turns raises. -/
theorem mapM_range_ok {ε α : Type} {turn : Nat → Except ε α} {n : Nat}
    (h : ∀ index < n, ∃ value, turn index = .ok value) :
    ∃ out, (List.range n).mapM turn = .ok out ∧ out.length = n ∧
      ∀ index (hi : index < out.length), turn index = .ok out[index] := by
  induction n with
  | zero => exact ⟨[], rfl, rfl, nofun⟩
  | succ n ih =>
      obtain ⟨out, hloop, hlength, hout⟩ := ih fun index hi => h index (hi.trans n.lt_succ_self)
      obtain ⟨value, hvalue⟩ := h n n.lt_succ_self
      have hlast : [n].mapM turn = .ok [value] := by
        rw [List.mapM_cons, hvalue, List.mapM_nil]
        rfl
      refine ⟨out ++ [value], ?_, by simp [hlength], ?_⟩
      · rw [List.range_succ, List.mapM_append, hloop, hlast]
        rfl
      · intro index hi
        rw [List.getElem_append]
        split
        case isTrue hbefore => exact hout index hbefore
        case isFalse hlast =>
          have hindex : index = n := by
            rw [List.length_append, List.length_singleton] at hi
            omega
          subst hindex
          rw [hvalue, List.getElem_singleton]

variable {data : List UInt8} {srcRate dstRate : Int}

/-- How many samples come of a number of samples. -/
def outCount (count : Nat) (srcRate dstRate : Int) : Int :=
  max 1 (Rounding.halfEven ((count : ℚ) * dstRate / srcRate))

/-- Where rates differ, whole samples go through two divisions and the loop. -/
theorem resamplePcm16_of_ne (hdata : 2 ≤ data.length) (hne : srcRate ≠ dstRate) :
    resamplePcm16 data srcRate dstRate = do
      let rounded ← divide ((samplesOf data).length * dstRate) srcRate
      let step ← divide srcRate dstRate
      let result ← (List.range (max 1 (Rounding.halfEven rounded)).toNat).mapM
        (resampled (samplesOf data) step)
      return tobytes result := by
  have hsome : ¬ (srcRate = dstRate ∨ data = []) := by
    rintro (heq | rfl)
    · exact hne heq
    · simp at hdata
  have hcount : ¬ (samplesOf data).length = 0 := by
    rw [length_samplesOf]
    omega
  unfold resamplePcm16
  rw [if_neg hsome]
  dsimp only
  rw [if_neg hcount]

theorem divide_of_ne_zero {left right : Int} (h : right ≠ 0) :
    divide left right = .ok (left / right) := if_neg h

theorem divide_zero (left : Int) : divide left 0 = .error .zeroDivision := rfl

/-- With a rate of 0, one of the divisions raises. -/
theorem resamplePcm16_of_zero (hdata : 2 ≤ data.length) (hne : srcRate ≠ dstRate)
    (h : srcRate = 0 ∨ dstRate = 0) :
    resamplePcm16 data srcRate dstRate = .error .zeroDivision := by
  rw [resamplePcm16_of_ne hdata hne]
  by_cases hsrc : srcRate = 0
  · rw [hsrc, divide_zero]
    rfl
  · rw [h.resolve_left hsrc, divide_of_ne_zero hsrc, divide_zero]
    rfl

/-- Where rates differ and are not 0, whole samples go through the loop. -/
theorem resamplePcm16_eq (hdata : 2 ≤ data.length) (hsrc : srcRate ≠ 0) (hdst : dstRate ≠ 0)
    (hne : srcRate ≠ dstRate) :
    resamplePcm16 data srcRate dstRate =
      tobytes <$> (List.range (outCount (samplesOf data).length srcRate dstRate).toNat).mapM
        (resampled (samplesOf data) (srcRate / dstRate)) := by
  have hcast : (((samplesOf data).length * dstRate : Int) : ℚ) =
      (samplesOf data).length * dstRate := by
    push_cast
    rfl
  rw [resamplePcm16_of_ne hdata hne, divide_of_ne_zero hsrc, divide_of_ne_zero hdst, outCount,
    ← hcast]
  rfl

/-- A position of the loop is never negative: where the rates have different signs, there is
one turn only. -/
theorem position_nonneg {count index : Nat}
    (h : index < (outCount count srcRate dstRate).toNat) :
    (0 : ℚ) ≤ index * (srcRate / dstRate) := by
  by_cases hratio : (0 : ℚ) ≤ srcRate / dstRate
  · exact mul_nonneg (Nat.cast_nonneg index) hratio
  · have hnegative : (dstRate : ℚ) / srcRate ≤ 0 := by
      rw [← inv_div]
      exact inv_nonpos.mpr (not_le.mp hratio).le
    have hrounded : Rounding.halfEven ((count : ℚ) * dstRate / srcRate) ≤ 0 := by
      apply Rounding.halfEven_nonpos
      rw [mul_div_assoc]
      exact mul_nonpos_of_nonneg_of_nonpos (Nat.cast_nonneg count) hnegative
    have hindex : index = 0 := by
      unfold outCount at h
      omega
    rw [hindex, Nat.cast_zero, zero_mul]

/-- What the loop stores, for at least one whole sample and rates that differ and are not 0. -/
theorem resamplePcm16_ok (hdata : 2 ≤ data.length) (hsrc : srcRate ≠ 0) (hdst : dstRate ≠ 0)
    (hne : srcRate ≠ dstRate) :
    ∃ out, resamplePcm16 data srcRate dstRate = .ok (tobytes out) ∧
      (out.length : Int) = outCount (samplesOf data).length srcRate dstRate ∧
      ∀ index (hi : index < out.length), (0 : ℚ) ≤ index * (srcRate / dstRate) ∧
        resampled (samplesOf data) (srcRate / dstRate) index = .ok out[index] := by
  have hsome : samplesOf data ≠ [] := by
    rw [← List.length_pos_iff, length_samplesOf]
    omega
  have hturns : ∀ index < (outCount (samplesOf data).length srcRate dstRate).toNat,
      ∃ value, resampled (samplesOf data) (srcRate / dstRate) index = .ok value := by
    intro index hi
    obtain ⟨value, hvalue, _⟩ := resampled_interpolates hsome (position_nonneg hi)
    exact ⟨value, hvalue⟩
  obtain ⟨out, hloop, hlength, hout⟩ := mapM_range_ok hturns
  have hone : 1 ≤ outCount (samplesOf data).length srcRate dstRate := le_max_left _ _
  refine ⟨out, ?_, ?_, fun index hi => ⟨position_nonneg (hlength ▸ hi), hout index hi⟩⟩
  · rw [resamplePcm16_eq hdata hsrc hdst hne, hloop]
    rfl
  · rw [hlength, Int.toNat_of_nonneg (by omega)]

/-- What `resample_pcm16` returns for at least one whole sample and positive rates that
differ. -/
theorem resamplePcm16_interpolates (hdata : 2 ≤ data.length) (hsrc : 0 < srcRate)
    (hdst : 0 < dstRate) (hne : srcRate ≠ dstRate) :
    ∃ out, resamplePcm16 data srcRate dstRate = .ok (tobytes out) ∧
      (out.length : Int) = max 1 (Rounding.halfEven
        (((samplesOf data).length : ℚ) * dstRate / srcRate)) ∧
      ∀ index (hi : index < out.length),
        Interpolates (samplesOf data) (index * (srcRate / dstRate)) out[index] := by
  have hsome : samplesOf data ≠ [] := by
    rw [← List.length_pos_iff, length_samplesOf]
    omega
  obtain ⟨out, hresult, hlength, hout⟩ := resamplePcm16_ok hdata hsrc.ne' hdst.ne' hne
  refine ⟨out, hresult, hlength, ?_⟩
  intro index hi
  obtain ⟨hposition, hturn⟩ := hout index hi
  obtain ⟨value, hvalue, hexpected⟩ := resampled_interpolates hsome hposition
  obtain rfl : out[index] = value := Except.ok.inj (hturn.symm.trans hvalue)
  exact hexpected

theorem resamplePcm16_interpolates_odd :
    ∃ out, resamplePcm16 [0, 0, 232, 3, 7] 8000 16000 = .ok (tobytes out) ∧
      (out.length : Int) =
        max 1 (Rounding.halfEven (((2 : Nat) : ℚ) * (16000 : Int) / (8000 : Int))) ∧
      ∀ index (hi : index < out.length),
        Interpolates [0, 1000] (index * ((8000 : Int) / (16000 : Int))) out[index] := by
  have hsamples : samplesOf [0, 0, 232, 3, 7] = [0, 1000] := by decide
  have h := @resamplePcm16_interpolates [0, 0, 232, 3, 7] 8000 16000 (by decide) (by decide)
    (by decide) (by decide)
  rwa [hsamples] at h

end Output

end GraphAgent.Voice
