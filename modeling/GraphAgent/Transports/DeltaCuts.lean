import GraphAgent.Transports.Playback
import Mathlib.Algebra.Order.Archimedean.Basic

/-!
# How the backend cuts its audio

Every delta is resampled on its own. Where the two rates are the same, the phone gets the same
frames however the backend cuts its audio; where they are not, a cut can be heard, in the number
of samples or in the samples between the two sides of it.
-/

namespace GraphAgent.Voice

section Cuts

/-- A delta of whole samples. -/
def deltaEvent (samples : List Int16) : Args :=
  [("type", .str "response.audio.delta"),
    ("delta", .str (String.ofList (Base64.encode (tobytes samples))))]

/-- The event that a step sends. -/
def Step.sent : Step → Option Args
  | .send event => some event
  | .pump => none

/-- The steps send the deltas of the cut and no other event; the pump has its turns anywhere. -/
def Delivers (steps : List Step) (cut : List (List Int16)) : Prop :=
  steps.filterMap Step.sent = cut.map deltaEvent

/-- `resample_pcm16` between two rates. -/
def resampler (srcRate dstRate : Int) (data : List UInt8) : Except ResampleError (List UInt8) :=
  resamplePcm16 data srcRate dstRate

/-- The frames that were queued since the last `speech_started`, in order. -/
def queued (state : Connection × History) : List (List UInt8) :=
  state.2.taken ++ state.1.outgoing

/-- Wherever nobody interrupts, the same audio is queued in the same frames, however it is cut
into deltas. -/
def CutsUnheard (py : Python) (srcRate dstRate : Int) : Prop :=
  ∀ before steps steps' cut cut',
    (play py (resampler srcRate dstRate) before).1.interrupted = false →
      Delivers steps cut → Delivers steps' cut' → cut.flatten = cut'.flatten →
        queued (play py (resampler srcRate dstRate) (before ++ steps)) =
          queued (play py (resampler srcRate dstRate) (before ++ steps'))

end Cuts

section Sound

variable {py : Python} {srcRate dstRate : Int} {samples : List Int16}

/-- The audio that comes of a delta. -/
def deltaSound (srcRate dstRate : Int) (samples : List Int16) : List UInt8 :=
  eventAudio (resampler srcRate dstRate) (deltaEvent samples)

theorem eventType_deltaEvent (samples : List Int16) :
    eventType py (deltaEvent samples) = "response.audio.delta" := by
  simp [eventType, deltaEvent, Args.get?, Python.str]

theorem tobytes_eq_nil : tobytes samples = [] ↔ samples = [] := by
  rw [← List.length_eq_zero_iff, length_tobytes, ← List.length_eq_zero_iff]
  omega

theorem audioDelta_deltaEvent (samples : List Int16) :
    audioDelta (deltaEvent samples) =
      if samples = [] then none
      else some (String.ofList (Base64.encode (tobytes samples))) := by
  have htext : String.ofList (Base64.encode (tobytes samples)) = "" ↔ samples = [] := by
    rw [← tobytes_eq_nil, ← Base64.encode_eq_nil, String.ofList_eq_empty_iff]
  simp [audioDelta, deltaEvent, Args.get?, htext]

theorem deltaSound_nil : deltaSound srcRate dstRate [] = [] := by
  rw [deltaSound, eventAudio, audioDelta_deltaEvent, if_pos rfl]

/-- A delta with samples is decoded to their bytes. -/
theorem deltaSound_eq (h : samples ≠ []) :
    deltaSound srcRate dstRate samples =
      match resamplePcm16 (tobytes samples) srcRate dstRate with
      | .error _ => []
      | .ok audio => audio := by
  rw [deltaSound, eventAudio, audioDelta_deltaEvent, if_neg h]
  simp only [deltaAudio, String.toList_ofList, Base64.decode_encode, resampler]
  cases resamplePcm16 (tobytes samples) srcRate dstRate <;> rfl

theorem deltaSound_of_eq (samples : List Int16) :
    deltaSound srcRate srcRate samples = tobytes samples := by
  by_cases h : samples = []
  · rw [h, deltaSound_nil]
    rfl
  · have hsame : resamplePcm16 (tobytes samples) srcRate srcRate = .ok (tobytes samples) :=
      if_pos (.inl rfl)
    rw [deltaSound_eq h, hsame]

theorem flatMap_deltaSound_of_eq (cut : List (List Int16)) :
    cut.flatMap (deltaSound srcRate srcRate) = tobytes cut.flatten := by
  induction cut with
  | nil => rfl
  | cons samples others ih =>
      rw [List.flatMap_cons, deltaSound_of_eq, ih, List.flatten_cons, tobytes_append]

theorem two_le_length_tobytes (h : samples ≠ []) : 2 ≤ (tobytes samples).length := by
  have hpos := List.length_pos_iff.mpr h
  rw [length_tobytes]
  omega

/-- With a rate of 0, every delta raises. -/
theorem deltaSound_of_zero (hne : srcRate ≠ dstRate) (h : srcRate = 0 ∨ dstRate = 0)
    (samples : List Int16) : deltaSound srcRate dstRate samples = [] := by
  by_cases hsamples : samples = []
  · rw [hsamples, deltaSound_nil]
  · rw [deltaSound_eq hsamples,
      resamplePcm16_of_zero (two_le_length_tobytes hsamples) hne h]

/-- With other rates that differ, the loop makes the samples of a delta. -/
theorem deltaSound_of_ne (hsrc : srcRate ≠ 0) (hdst : dstRate ≠ 0) (hne : srcRate ≠ dstRate)
    (h : samples ≠ []) :
    ∃ out, deltaSound srcRate dstRate samples = tobytes out ∧
      (out.length : Int) = outCount samples.length srcRate dstRate ∧
      ∀ index (hi : index < out.length), (0 : ℚ) ≤ index * (srcRate / dstRate) ∧
        resampled samples (srcRate / dstRate) index = .ok out[index] := by
  obtain ⟨out, hresult, hlength, hout⟩ :=
    resamplePcm16_ok (two_le_length_tobytes h) hsrc hdst hne
  rw [samplesOf_tobytes] at hlength hout
  exact ⟨out, by rw [deltaSound_eq h, hresult], hlength, hout⟩

end Sound

section Runs

variable {py : Python} {srcRate dstRate : Int} {cut cut' : List (List Int16)}

theorem history_deltaEvent {history : History} (h : history.silenced = false)
    (samples : List Int16) :
    history.send py (resampler srcRate dstRate) (deltaEvent samples) =
      ⟨history.taken, history.accepted ++ deltaSound srcRate dstRate samples, false⟩ := by
  have hspeech : ¬ isSpeechStarted py (deltaEvent samples) := by
    rw [isSpeechStarted, eventType_deltaEvent]
    decide
  rw [History.send, if_neg hspeech, h]
  rfl

/-- The audio of all deltas is accepted, whenever the pump has its turns. -/
theorem accepted_of_delivers {steps : List Step} (h : Delivers steps cut)
    {state : Connection × History} (hstate : state.2.silenced = false) :
    (steps.foldl (step py (resampler srcRate dstRate)) state).2.accepted =
      state.2.accepted ++ cut.flatMap (deltaSound srcRate dstRate) := by
  induction steps generalizing state cut with
  | nil =>
      obtain rfl : cut = [] := List.map_eq_nil_iff.mp h.symm
      exact (List.append_nil _).symm
  | cons first rest ih =>
      cases first with
      | pump =>
          rw [List.foldl_cons]
          have hpump : (step py (resampler srcRate dstRate) state .pump).2.silenced = false ∧
              (step py (resampler srcRate dstRate) state .pump).2.accepted =
                state.2.accepted := by
            unfold step
            dsimp only
            cases pumpAudio state.1 with
            | none => exact ⟨hstate, rfl⟩
            | some result => exact ⟨hstate, rfl⟩
          rw [← hpump.2]
          exact ih h hpump.1
      | send event =>
          cases cut with
          | nil => cases h
          | cons samples others =>
              obtain ⟨rfl, hrest⟩ := List.cons.inj h
              have hhistory := @history_deltaEvent py srcRate dstRate _ hstate samples
              have hnext := @ih others hrest
                (step py (resampler srcRate dstRate) state (.send (deltaEvent samples)))
                (congrArg History.silenced hhistory)
              have haccepted : (step py (resampler srcRate dstRate) state
                  (.send (deltaEvent samples))).2.accepted =
                    state.2.accepted ++ deltaSound srcRate dstRate samples :=
                congrArg History.accepted hhistory
              rw [List.foldl_cons, hnext, haccepted, List.flatMap_cons, List.append_assoc]

/-- What is queued behind uninterrupted deltas is decided by their audio. -/
theorem isCut_of_delivers {before steps : List Step}
    (hbefore : (play py (resampler srcRate dstRate) before).1.interrupted = false)
    (h : Delivers steps cut) :
    ∃ rest, Chunks.IsCut frameBytes
      ((play py (resampler srcRate dstRate) before).2.accepted ++
        cut.flatMap (deltaSound srcRate dstRate))
      (queued (play py (resampler srcRate dstRate) (before ++ steps))) rest := by
  have hsilenced := (accounted_play before).interrupted.symm.trans hbefore
  have hcut := (@accounted_play py (resampler srcRate dstRate) (before ++ steps)).cut
  have haccepted : (play py (resampler srcRate dstRate) (before ++ steps)).2.accepted =
      (play py (resampler srcRate dstRate) before).2.accepted ++
        cut.flatMap (deltaSound srcRate dstRate) := by
    rw [play_append]
    exact accepted_of_delivers h hsilenced
  rw [haccepted] at hcut
  exact ⟨_, hcut⟩

/-- Where the audio of a cut is the audio of its samples, cuts are not heard. -/
theorem cutsUnheard_of_sound
    (h : ∀ cut cut' : List (List Int16), cut.flatten = cut'.flatten →
      cut.flatMap (deltaSound srcRate dstRate) = cut'.flatMap (deltaSound srcRate dstRate)) :
    CutsUnheard py srcRate dstRate := by
  intro before steps steps' cut cut' hbefore hsteps hsteps' hsame
  obtain ⟨rest, hcut⟩ := isCut_of_delivers hbefore hsteps
  obtain ⟨rest', hcut'⟩ := isCut_of_delivers hbefore hsteps'
  rw [h cut cut' hsame] at hcut
  exact (hcut.unique hcut').1

/-- Where cuts are not heard, two cuts of the same samples fill the same frames. -/
theorem CutsUnheard.frames (h : CutsUnheard py srcRate dstRate)
    (hsame : cut.flatten = cut'.flatten) :
    ∃ frames rest rest',
      Chunks.IsCut frameBytes (cut.flatMap (deltaSound srcRate dstRate)) frames rest ∧
        Chunks.IsCut frameBytes (cut'.flatMap (deltaSound srcRate dstRate)) frames rest' := by
  have hdelivers : ∀ cut : List (List Int16),
      Delivers (cut.map fun samples => Step.send (deltaEvent samples)) cut := by
    intro cut
    rw [Delivers, List.filterMap_map]
    exact congrFun List.filterMap_eq_map cut
  have hfresh : (play py (resampler srcRate dstRate) []).1.interrupted = false := rfl
  obtain ⟨rest, hcut⟩ := isCut_of_delivers hfresh (hdelivers cut)
  obtain ⟨rest', hcut'⟩ := isCut_of_delivers hfresh (hdelivers cut')
  have hqueued := h [] _ _ cut cut' hfresh (hdelivers cut) (hdelivers cut') hsame
  rw [hqueued] at hcut
  exact ⟨_, rest, rest', hcut, hcut'⟩

end Runs

section Counts

variable {py : Python} {srcRate dstRate : Int} {samples : List Int16}

/-- The number of samples of a delta is rounded, and is 1 at least. -/
theorem le_outCount (count : Nat) (srcRate dstRate : Int) :
    count * (dstRate / srcRate : ℚ) - 1 / 2 ≤ outCount count srcRate dstRate := by
  have hnear := (abs_le.mp (Rounding.abs_halfEven_sub_le ((count : ℚ) * dstRate / srcRate))).1
  calc count * (dstRate / srcRate : ℚ) - 1 / 2 = (count : ℚ) * dstRate / srcRate - 1 / 2 := by
        rw [mul_div_assoc]
    _ ≤ Rounding.halfEven ((count : ℚ) * dstRate / srcRate) := by linarith
    _ ≤ outCount count srcRate dstRate := Int.cast_le.mpr (le_max_right _ _)

theorem outCount_le {count : Nat} {bound : Int} (hone : 1 ≤ bound)
    (h : count * (dstRate / srcRate : ℚ) + 1 / 2 ≤ bound) :
    outCount count srcRate dstRate ≤ bound := by
  have hnear := (abs_le.mp (Rounding.abs_halfEven_sub_le ((count : ℚ) * dstRate / srcRate))).2
  rw [← mul_div_assoc] at h
  have hround : (Rounding.halfEven ((count : ℚ) * dstRate / srcRate) : ℚ) ≤ bound := by linarith
  exact max_le hone (by exact_mod_cast hround)

/-- Where the ratio is not the number of samples that a single sample makes, long audio comes
out longer or shorter by a frame when it is cut into single samples. -/
theorem exists_gap (h : (outCount 1 srcRate dstRate : ℚ) ≠ dstRate / srcRate) :
    ∃ n : Nat, 0 < n ∧
      (outCount n srcRate dstRate + frameSamples ≤ n * outCount 1 srcRate dstRate ∨
        n * outCount 1 srcRate dstRate + frameSamples ≤ outCount n srcRate dstRate) := by
  have hone : 1 ≤ outCount 1 srcRate dstRate := le_max_left _ _
  rcases lt_or_gt_of_ne h with hlt | hgt
  · obtain ⟨n, hn⟩ := exists_nat_ge (161 / ((dstRate : ℚ) / srcRate - outCount 1 srcRate dstRate))
    rw [div_le_iff₀ (sub_pos.mpr hlt)] at hn
    have hpos : 0 < n := by
      rcases Nat.eq_zero_or_pos n with rfl | hpos
      · norm_num at hn
      · exact hpos
    refine ⟨n, hpos, .inr ?_⟩
    have hcast : ((n * outCount 1 srcRate dstRate + frameSamples : Int) : ℚ) ≤
        outCount n srcRate dstRate :=
      calc ((n * outCount 1 srcRate dstRate + frameSamples : Int) : ℚ)
          = n * outCount 1 srcRate dstRate + 160 := by
            rw [frameSamples]
            push_cast
            rfl
        _ ≤ n * (dstRate / srcRate) - 1 / 2 := by linarith
        _ ≤ outCount n srcRate dstRate := le_outCount n srcRate dstRate
    exact_mod_cast hcast
  · obtain ⟨n, hn⟩ := exists_nat_ge
      (max 161 (161 / (outCount 1 srcRate dstRate - (dstRate : ℚ) / srcRate)))
    have hlong : (161 : ℚ) ≤ n := (le_max_left _ _).trans hn
    have hgap := (le_max_right _ _).trans hn
    rw [div_le_iff₀ (sub_pos.mpr hgt)] at hgap
    have hn : 161 ≤ n := by exact_mod_cast hlong
    refine ⟨n, by omega, .inl ?_⟩
    have hbound : outCount n srcRate dstRate ≤ n * outCount 1 srcRate dstRate - frameSamples := by
      apply outCount_le
      · have hmany : (n : Int) * 1 ≤ n * outCount 1 srcRate dstRate :=
          mul_le_mul_of_nonneg_left hone (by omega)
        rw [frameSamples]
        omega
      · rw [frameSamples]
        push_cast
        linarith
    omega

end Counts

section Heard

variable {py : Python} {srcRate dstRate : Int} {samples : List Int16}

theorem length_deltaSound (hsrc : srcRate ≠ 0) (hdst : dstRate ≠ 0) (hne : srcRate ≠ dstRate)
    (h : samples ≠ []) :
    ((deltaSound srcRate dstRate samples).length : Int) =
      2 * outCount samples.length srcRate dstRate := by
  obtain ⟨out, hsound, hlength, _⟩ := deltaSound_of_ne hsrc hdst hne h
  rw [hsound, length_tobytes, ← hlength]
  push_cast
  rfl

/-- A delta in one piece and the same delta in single samples. -/
theorem length_singles (hsrc : srcRate ≠ 0) (hdst : dstRate ≠ 0) (hne : srcRate ≠ dstRate)
    (n : Nat) :
    (((List.replicate n [(0 : Int16)]).flatMap (deltaSound srcRate dstRate)).length : Int) =
      2 * (n * outCount 1 srcRate dstRate) := by
  induction n with
  | zero => simp
  | succ n ih =>
      have hone := @length_deltaSound srcRate dstRate [(0 : Int16)] hsrc hdst hne
        (List.cons_ne_nil _ _)
      rw [List.replicate_succ, List.flatMap_cons, List.length_append]
      push_cast
      rw [ih, hone, List.length_singleton]
      ring

/-- Long audio in single samples fills another number of frames. -/
theorem heard_of_gap (hsrc : srcRate ≠ 0) (hdst : dstRate ≠ 0) (hne : srcRate ≠ dstRate)
    {n : Nat} (hpos : 0 < n)
    (h : outCount n srcRate dstRate + frameSamples ≤ n * outCount 1 srcRate dstRate ∨
      n * outCount 1 srcRate dstRate + frameSamples ≤ outCount n srcRate dstRate) :
    ¬ CutsUnheard py srcRate dstRate := by
  intro hunheard
  have hsome : List.replicate n (0 : Int16) ≠ [] := by
    rw [← List.length_pos_iff, List.length_replicate]
    exact hpos
  have hsame : [List.replicate n (0 : Int16)].flatten = (List.replicate n [0]).flatten := by
    simp
  obtain ⟨frames, rest, rest', hcut, hcut'⟩ := hunheard.frames hsame
  have hwhole := length_deltaSound hsrc hdst hne hsome
  have hsingles := length_singles hsrc hdst hne n
  have hframes := hcut.length_chunks.symm.trans hcut'.length_chunks
  rw [List.length_replicate] at hwhole
  rw [List.flatMap_singleton] at hframes
  generalize n * outCount 1 srcRate dstRate = singles at *
  unfold frameBytes frameSamples at *
  omega

theorem tobytes_take (samples : List Int16) (k : Nat) :
    (tobytes samples).take (2 * k) = tobytes (samples.take k) := by
  induction samples generalizing k with
  | nil => simp [tobytes]
  | cons value others ih =>
      cases k with
      | zero => rfl
      | succ k =>
          have hbytes : tobytes (value :: others) =
              UInt8.ofNat (value.toUInt16.toNat % 256) ::
                UInt8.ofNat (value.toUInt16.toNat / 256) :: tobytes others := rfl
          rw [Nat.mul_succ, hbytes, List.take_succ_cons, List.take_succ_cons, ih]
          rfl

/-- A single sample is repeated. -/
theorem deltaSound_single (hsrc : srcRate ≠ 0) (hdst : dstRate ≠ 0) (hne : srcRate ≠ dstRate)
    (value : Int16) :
    deltaSound srcRate dstRate [value] =
      tobytes (List.replicate (outCount 1 srcRate dstRate).toNat value) := by
  obtain ⟨out, hsound, hlength, hout⟩ :=
    @deltaSound_of_ne srcRate dstRate [value] hsrc hdst hne (List.cons_ne_nil _ _)
  have hreplicate : out = List.replicate (outCount 1 srcRate dstRate).toNat value := by
    rw [List.length_singleton] at hlength
    rw [List.eq_replicate_iff]
    refine ⟨by omega, ?_⟩
    intro stored hstored
    obtain ⟨index, hi, rfl⟩ := List.getElem_of_mem hstored
    obtain ⟨hposition, hturn⟩ := hout index hi
    have hleft : Rounding.truncate (index * ((srcRate : ℚ) / dstRate)) =
        (⌊index * ((srcRate : ℚ) / dstRate)⌋.toNat : Nat) := by
      rw [Rounding.truncate_of_nonneg hposition, Int.toNat_of_nonneg (Int.floor_nonneg.mpr hposition)]
    have hlast := @resampled_of_last_le [value] (srcRate / dstRate) index (List.cons_ne_nil _ _) _
      hleft (Nat.zero_le _)
    exact Except.ok.inj (hturn.symm.trans hlast)
  rw [hsound, hreplicate]

/-- In one piece, the samples between 0 and 1000 rise. -/
theorem deltaSound_rise (hsrc : srcRate ≠ 0) (hdst : dstRate ≠ 0) (hne : srcRate ≠ dstRate)
    {k : Nat} (hk : 2 ≤ k) (hratio : (k : ℚ) = dstRate / srcRate) :
    ∃ out, deltaSound srcRate dstRate [0, 1000] = tobytes out ∧ k ≤ out.length ∧
      ∃ hi : k - 1 < out.length, out[k - 1] ≠ 0 := by
  obtain ⟨out, hsound, hlength, hout⟩ :=
    @deltaSound_of_ne srcRate dstRate [0, 1000] hsrc hdst hne (List.cons_ne_nil _ _)
  have hk0 : (0 : ℚ) < k := by exact_mod_cast (by omega : 0 < k)
  have hk2 : (2 : ℚ) ≤ k := by exact_mod_cast hk
  have hlong : k ≤ out.length := by
    have hcast : ((k : Int) : ℚ) ≤ outCount 2 srcRate dstRate :=
      calc ((k : Int) : ℚ) ≤ (2 : Nat) * (dstRate / srcRate) - 1 / 2 := by
            rw [← hratio]
            push_cast
            linarith
        _ ≤ outCount 2 srcRate dstRate := le_outCount 2 srcRate dstRate
    have hint : (k : Int) ≤ outCount 2 srcRate dstRate := by exact_mod_cast hcast
    have hout : (out.length : Int) = outCount 2 srcRate dstRate := hlength
    omega
  refine ⟨out, hsound, hlong, by omega, ?_⟩
  obtain ⟨hposition, hturn⟩ := hout (k - 1) (by omega)
  have hstep : (srcRate : ℚ) / dstRate = 1 / k := by rw [hratio, one_div_div]
  have hwhere : ((k - 1 : Nat) : ℚ) * (srcRate / dstRate) = 1 - 1 / k := by
    rw [hstep, Nat.cast_sub (by omega), Nat.cast_one]
    field_simp
  have hhalf : (1 : ℚ) / k ≤ 1 / 2 := one_div_le_one_div_of_le two_pos hk2
  have hpos : (0 : ℚ) < 1 / k := one_div_pos.mpr hk0
  have hleft : Rounding.truncate (((k - 1 : Nat) : ℚ) * (srcRate / dstRate)) = (0 : Nat) := by
    rw [Rounding.truncate_of_nonneg hposition, hwhere]
    exact Int.floor_eq_iff.mpr ⟨by push_cast; linarith, by push_cast; linarith⟩
  obtain ⟨value, hvalue, htruncate, _⟩ := @resampled_of_lt [0, 1000] (srcRate / dstRate) (k - 1) 0
    hleft (by decide) (by push_cast; exact hposition) (by rw [hwhere]; push_cast; linarith)
  have hsame : out[k - 1] = value := Except.ok.inj (hturn.symm.trans hvalue)
  intro hzero
  have hlarge : (500 : Int) ≤ value.toInt := by
    rw [htruncate]
    apply Rounding.le_truncate
    have hfirst : ([0, 1000] : List Int16)[0].toInt = 0 := by decide
    have hsecond : ([0, 1000] : List Int16)[0 + 1].toInt = 1000 := by decide
    rw [hfirst, hsecond, hwhere]
    push_cast
    linarith
  rw [← hsame, hzero] at hlarge
  exact absurd hlarge (by decide)

/-- Where the ratio is a whole number, the samples between two others are not heard when the
cut falls between these. -/
theorem heard_of_whole (hsrc : srcRate ≠ 0) (hdst : dstRate ≠ 0) (hne : srcRate ≠ dstRate)
    (hratio : (outCount 1 srcRate dstRate : ℚ) = dstRate / srcRate) :
    ¬ CutsUnheard py srcRate dstRate := by
  intro hunheard
  have hone : 1 ≤ outCount 1 srcRate dstRate := le_max_left _ _
  obtain ⟨k, hk⟩ := Int.eq_ofNat_of_zero_le (zero_le_one.trans hone)
  have hkRatio : (k : ℚ) = dstRate / srcRate := by rw [← hratio, hk, Int.cast_natCast]
  have hk2 : 2 ≤ k := by
    have hk1 : k ≠ 1 := by
      rintro rfl
      rw [Nat.cast_one, eq_div_iff (Int.cast_ne_zero.mpr hsrc), one_mul] at hkRatio
      exact hne (by exact_mod_cast hkRatio)
    omega
  obtain ⟨out, hsound, hlong, hi, hout⟩ := deltaSound_rise hsrc hdst hne hk2 hkRatio
  -- silence behind the two samples fills the frames up
  have hsame : ([0, 1000] :: List.replicate frameSamples [(0 : Int16)]).flatten =
      ([0] :: [1000] :: List.replicate frameSamples [0]).flatten := rfl
  obtain ⟨frames, rest, rest', hcut, hcut'⟩ := hunheard.frames hsame
  have hsilence := length_singles hsrc hdst hne frameSamples
  rw [List.flatMap_cons, hsound] at hcut
  rw [List.flatMap_cons, List.flatMap_cons, deltaSound_single hsrc hdst hne, hk,
    Int.toNat_natCast] at hcut'
  have hfull : 2 * k ≤ frameBytes * frames.length := by
    rw [hcut.length_chunks, List.length_append]
    rw [hk] at hsilence
    unfold frameBytes frameSamples at *
    omega
  have hstart := hcut.take_eq hcut' hfull
  have hwhole : 2 * k ≤ (tobytes out).length := by
    rw [length_tobytes]
    omega
  have hzeros : 2 * k ≤ (tobytes (List.replicate k (0 : Int16))).length := by
    rw [length_tobytes, List.length_replicate]
  rw [List.take_append_of_le_length hwhole, List.take_append_of_le_length hzeros, tobytes_take,
    tobytes_take] at hstart
  have hsamples := congrArg frombytes hstart
  rw [frombytes_tobytes, frombytes_tobytes] at hsamples
  have hmem : out[k - 1] ∈ out.take k :=
    List.mem_take_iff_getElem.mpr ⟨k - 1, by omega, rfl⟩
  rw [hsamples] at hmem
  exact hout (List.eq_of_mem_replicate (List.mem_of_mem_take hmem))

end Heard

section Result

/-- The frames do not depend on how the backend cuts its audio exactly where the two rates are
the same, or one of them is 0 so that nothing is ever queued. -/
theorem cutsUnheard_iff (py : Python) (srcRate dstRate : Int) :
    CutsUnheard py srcRate dstRate ↔ srcRate = dstRate ∨ srcRate = 0 ∨ dstRate = 0 := by
  constructor
  · intro hunheard
    by_contra hrates
    obtain ⟨hne, hsrc, hdst⟩ : srcRate ≠ dstRate ∧ srcRate ≠ 0 ∧ dstRate ≠ 0 := by
      simpa only [not_or] using hrates
    by_cases hratio : (outCount 1 srcRate dstRate : ℚ) = dstRate / srcRate
    · exact heard_of_whole hsrc hdst hne hratio hunheard
    · obtain ⟨n, hpos, hgap⟩ := exists_gap hratio
      exact heard_of_gap hsrc hdst hne hpos hgap hunheard
  · intro hrates
    apply cutsUnheard_of_sound
    intro cut cut' hsame
    by_cases hne : srcRate = dstRate
    · subst hne
      rw [flatMap_deltaSound_of_eq, flatMap_deltaSound_of_eq, hsame]
    · have hsilent := deltaSound_of_zero hne (hrates.resolve_left hne)
      rw [List.flatMap_eq_nil_iff.mpr fun samples _ => hsilent samples,
        List.flatMap_eq_nil_iff.mpr fun samples _ => hsilent samples]

/-- Where the backend sends 24 kHz, 240 samples in one delta are 80 samples for the phone, and
240 deltas of one sample are 240, which is a frame more. -/
theorem cuts_heard_at_24000 :
    ¬ CutsUnheard ⟨id, fun _ => true, fun _ => ""⟩ (outputRate ⟨16000, some 24000⟩)
      telephonyRate := by
  have hrate : outputRate ⟨16000, some 24000⟩ = 24000 := by decide
  have hwhole : outCount 240 24000 8000 = 80 := by decide +kernel
  have hsingle : outCount 1 24000 8000 = 1 := by decide +kernel
  rw [hrate, telephonyRate]
  apply @heard_of_gap _ 24000 8000 (by decide) (by decide) (by decide) 240 (by decide)
  rw [hwhole, hsingle]
  exact .inl (by decide)

end Result

end GraphAgent.Voice
