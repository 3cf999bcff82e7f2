import Nimburion.Reliability.Retry
import Nimburion.Reliability.Outbox

namespace Nimburion

section Doubling

theorem doubled (x : Int) (n : ℕ) : x*2^(n+1) = x*2^n*2 := by
  rw [Int.pow_succ,Int.mul_assoc]

theorem doubled_first (x : Int) (n : ℕ) : x*2^(n+1) = x*2*2^n := by
  rw [Int.pow_succ,Int.mul_comm (2^n),Int.mul_assoc]

theorem doubled_mono {x : Int} (hx : 0 ≤ x) {m n : ℕ} (h : m ≤ n) : x*2^m ≤ x*2^n := by
  have hpow : (2 : Int)^m ≤ 2^n := mod_cast Nat.pow_le_pow_right (by decide) h
  exact Int.mul_le_mul_of_nonneg_left hpow hx

theorem doubled_ge {x : Int} (hx : 0 ≤ x) (n : ℕ) : x ≤ x*2^n := by
  simpa using doubled_mono hx (Nat.zero_le n)

theorem doubled_past {x m : Int} (hx : 0 < x) (hm : m < 2^63) {n : ℕ} (hn : 63 ≤ n) :
    m ≤ x*2^n := by
  have hmono := doubled_mono (Int.le_of_lt hx) hn
  omega

theorem toInt_double_of_small {b : Int64} (hb : 0 ≤ b.toInt) (h : b.toInt*2 < 2^63) :
    (b*2).toInt = b.toInt*2 := by
  rw [Reliability.Outbox.toInt_double]
  exact Reliability.Outbox.bmod_of_small (by omega) h

end Doubling

namespace Retry.Wrapping

def backoffLoop (maxBackoff : Int64) : ℕ → Int64 → Int64
  | 0, backoff => if maxBackoff < backoff then maxBackoff else backoff
  | n+1, backoff =>
      if maxBackoff/2 ≤ backoff then maxBackoff else backoffLoop maxBackoff n (backoff*2)

def exponentialBackoff (attempt initial maxBackoff : Int64) : Int64 :=
  if attempt ≤ 0 then initial else backoffLoop maxBackoff (attempt.toInt.toNat-1) initial

theorem half {m : Int} (hm : 0 < m) : m.tdiv 2 = m/2 :=
  Int.tdiv_eq_ediv_of_nonneg (Int.le_of_lt hm)

theorem toInt_half {m : Int64} (hm : 0 < m.toInt) : (m/2).toInt = m.toInt/2 := by
  have hlt := m.toInt_lt
  have htwo : (2 : Int64).toInt = 2 := rfl
  rw [Int64.toInt_div,htwo,half hm]
  exact Reliability.Outbox.bmod_of_small (by omega) (by omega)

-- the guard keeps every product below the maximum, so no step wraps
theorem toInt_backoffLoop {m : Int64} (hm : 0 < m.toInt) (n : ℕ) {b : Int64} (hb : 0 < b.toInt) :
    (backoffLoop m n b).toInt = Retry.backoffLoop m.toInt n b.toInt := by
  have hlt := m.toInt_lt
  induction n generalizing b with
  | zero =>
    simp only [backoffLoop,Retry.backoffLoop,Int64.lt_iff_toInt_lt]
    split_ifs <;> rfl
  | succ n ih =>
    simp only [backoffLoop,Retry.backoffLoop,Int64.le_iff_toInt_le,toInt_half hm,half hm]
    split_ifs with hhalf
    · rfl
    · have hsmall : b.toInt*2 < 2^63 := by omega
      have hdouble := toInt_double_of_small (Int.le_of_lt hb) hsmall
      rw [ih (by omega),hdouble]

theorem backoffLoop_zero (m b : Int) : Retry.backoffLoop m 0 b = min m b := by
  simp only [Retry.backoffLoop]
  split_ifs with h
  · exact (Int.min_eq_left (Int.le_of_lt h)).symm
  · exact (Int.min_eq_right (Int.not_lt.mp h)).symm

theorem backoffLoop_succ {m : Int} (hm : 0 < m) (n : ℕ) {b : Int} (hb : 0 < b) :
    Retry.backoffLoop m (n+1) b = if m/2 ≤ b*2^n then m else b*2^(n+1) := by
  induction n generalizing b with
  | zero =>
    simp only [Retry.backoffLoop,half hm,Int.pow_zero,Int.mul_one,Nat.zero_add,Int.pow_one]
    split_ifs with hhalf hpast
    · rfl
    · have hpast : m < b*2 := hpast
      omega
    · rfl
  | succ n ih =>
    have hge : b ≤ b*2^(n+1) := doubled_ge (by omega) _
    rw [Retry.backoffLoop,half hm]
    split_ifs with hhalf hlast hlast
    · rfl
    · omega
    · rw [ih (by omega),← doubled_first,if_pos hlast]
    · rw [ih (by omega),← doubled_first,if_neg hlast,← doubled_first]

-- the guard halves with truncation: only one below the maximum it jumps too early
theorem backoffLoop_cases {m : Int} (hm : 0 < m) (n : ℕ) {b : Int} (hb : 0 < b) :
    Retry.backoffLoop m n b = min m (b*2^n) ∨
      (Retry.backoffLoop m n b = m ∧ b*2^n = m-1) := by
  cases n with
  | zero =>
    left
    rw [backoffLoop_zero,Int.pow_zero,Int.mul_one]
  | succ n =>
    rw [backoffLoop_succ hm n hb,doubled]
    split_ifs with hhalf
    · by_cases hreached : m ≤ b*2^n*2
      · exact .inl (Int.min_eq_left hreached).symm
      · exact .inr ⟨rfl,by omega⟩
    · exact .inl (Int.min_eq_right (by omega)).symm

theorem backoffLoop_step {m : Int} (hm : 0 < m) (n : ℕ) {b : Int} (hb : 0 < b) :
    Retry.backoffLoop m n b ≤ Retry.backoffLoop m (n+1) b := by
  have hpos : b ≤ b*2^n := doubled_ge (by omega) n
  have hnext := backoffLoop_succ hm n hb
  rw [doubled] at hnext
  rw [hnext]
  rcases backoffLoop_cases hm n hb with hexact | ⟨hjump,hvalue⟩
  · rw [hexact]
    split_ifs with hhalf
    · exact Int.min_le_left _ _
    · exact Int.le_trans (Int.min_le_right _ _) (by omega)
  · refine Int.le_of_eq ?_
    rw [hjump,if_pos (by omega)]

theorem backoffLoop_mono {m : Int} (hm : 0 < m) {b : Int} (hb : 0 < b) {k n : ℕ} (h : k ≤ n) :
    Retry.backoffLoop m k b ≤ Retry.backoffLoop m n b := by
  induction h with
  | refl => exact Int.le_refl _
  | step _ ih => exact Int.le_trans ih (backoffLoop_step hm _ hb)

theorem backoffLoop_reaches {m : Int} (hm : 0 < m) {b : Int} (hb : 0 < b) {n : ℕ}
    (hn : m ≤ b*2^n) : Retry.backoffLoop m n b = m := by
  rcases backoffLoop_cases hm n hb with hexact | ⟨hjump,_⟩
  · rw [hexact]
    exact Int.min_eq_left hn
  · exact hjump

variable {initial maxBackoff : Int64}

theorem toInt_exponentialBackoff (hinitial : 0 < initial) (hmax : 0 < maxBackoff)
    {attempt : Int64} (hattempt : 1 ≤ attempt) :
    (exponentialBackoff attempt initial maxBackoff).toInt =
      Retry.backoffLoop maxBackoff.toInt (attempt.toInt.toNat-1) initial.toInt := by
  have hpos : ¬ attempt ≤ 0 := by
    rw [Int64.le_iff_toInt_le] at hattempt ⊢
    have hone : (1 : Int64).toInt = 1 := rfl
    have hzero : (0 : Int64).toInt = 0 := rfl
    omega
  rw [exponentialBackoff,if_neg hpos]
  exact toInt_backoffLoop (Int64.lt_iff_toInt_lt.mp hmax) _ (Int64.lt_iff_toInt_lt.mp hinitial)

theorem backoff_bounded_and_monotone (hinitial : 0 < initial) (hmax : 0 < maxBackoff) :
    (∀ attempt, 1 ≤ attempt →
      min initial.toInt maxBackoff.toInt ≤ (exponentialBackoff attempt initial maxBackoff).toInt ∧
      exponentialBackoff attempt initial maxBackoff ≤ maxBackoff ∧
      min maxBackoff.toInt (initial.toInt*2^(attempt.toInt.toNat-1)) ≤
        (exponentialBackoff attempt initial maxBackoff).toInt ∧
      (min maxBackoff.toInt (initial.toInt*2^(attempt.toInt.toNat-1)) <
          (exponentialBackoff attempt initial maxBackoff).toInt →
        exponentialBackoff attempt initial maxBackoff = maxBackoff ∧
          maxBackoff.toInt-1 ≤ initial.toInt*2^(attempt.toInt.toNat-1))) ∧
    (∀ attempt later, 1 ≤ attempt → attempt ≤ later →
      exponentialBackoff attempt initial maxBackoff ≤ exponentialBackoff later initial maxBackoff) ∧
    ∃ enough, 1 ≤ enough ∧ ∀ attempt, enough ≤ attempt →
      exponentialBackoff attempt initial maxBackoff = maxBackoff := by
  have hm : 0 < maxBackoff.toInt := Int64.lt_iff_toInt_lt.mp hmax
  have hb : 0 < initial.toInt := Int64.lt_iff_toInt_lt.mp hinitial
  have hvalue : ∀ {attempt : Int64}, 1 ≤ attempt → _ := toInt_exponentialBackoff hinitial hmax
  refine ⟨?_,?_,?_⟩
  · intro attempt hattempt
    simp only [Int64.le_iff_toInt_le,← Int64.toInt_inj,hvalue hattempt]
    have hge : initial.toInt ≤ initial.toInt*2^(attempt.toInt.toNat-1) := doubled_ge (by omega) _
    rcases backoffLoop_cases hm (attempt.toInt.toNat-1) hb with hexact | ⟨hjump,hlast⟩
    · rw [hexact]
      refine ⟨?_,Int.min_le_left _ _,Int.le_refl _,fun hlt => absurd hlt (Int.lt_irrefl _)⟩
      exact Int.le_min.mpr ⟨Int.min_le_right _ _,Int.le_trans (Int.min_le_left _ _) hge⟩
    · rw [hjump]
      exact ⟨Int.min_le_right _ _,Int.le_refl _,Int.min_le_left _ _,fun _ => ⟨rfl,by omega⟩⟩
  · intro attempt later hattempt hlater
    have hlater' : 1 ≤ later := Int64.le_trans hattempt hlater
    rw [Int64.le_iff_toInt_le] at hlater ⊢
    rw [hvalue hattempt,hvalue hlater']
    exact backoffLoop_mono hm hb (by omega)
  · refine ⟨64,by decide,fun attempt hattempt => ?_⟩
    have hone : 1 ≤ attempt := Int64.le_trans (by decide) hattempt
    rw [← Int64.toInt_inj,hvalue hone]
    rw [Int64.le_iff_toInt_le] at hattempt
    have hsixty : (64 : Int64).toInt = 64 := rfl
    exact backoffLoop_reaches hm hb (doubled_past hb maxBackoff.toInt_lt (by omega))

-- from one second to five: doubled twice, then capped
theorem second_to_five_backs_off : (0 : Int64) < 1000000000 ∧ (0 : Int64) < 5000000000 ∧
    exponentialBackoff 3 1000000000 5000000000 ≤ exponentialBackoff 10 1000000000 5000000000 :=
  ⟨by decide,by decide,(backoff_bounded_and_monotone (by decide) (by decide)).2.1 3 10 (by decide)
    (by decide)⟩

end Retry.Wrapping

namespace Reliability.Outbox

-- the first doubling that reaches the maximum is still an int64
def FirstReachFits (initial maxBackoff : Int) : Prop :=
  ∀ k, 1 ≤ k → (∀ j, 1 ≤ j → j < k → initial*2^j < maxBackoff) → maxBackoff ≤ initial*2^k →
    initial*2^k < 2^63

def SaturatingDoubling (initial maxBackoff : Int64) : Prop :=
  (∀ attempt, 1 ≤ attempt → (exponentialBackoff attempt initial maxBackoff).toInt =
    min maxBackoff.toInt (initial.toInt*2^(attempt.toInt.toNat-1))) ∧
  (∀ attempt, 1 ≤ attempt → 0 < exponentialBackoff attempt initial maxBackoff) ∧
  ∀ attempt later, 1 ≤ attempt → attempt ≤ later →
    exponentialBackoff attempt initial maxBackoff ≤ exponentialBackoff later initial maxBackoff

variable {m : Int64}

theorem FirstReachFits.double {b : Int} (h : FirstReachFits b m.toInt) (hbelow : b*2 < m.toInt) :
    FirstReachFits (b*2) m.toInt := by
  intro k hk hfirst hreach
  rw [← doubled_first] at hreach ⊢
  refine h (k+1) (by omega) (fun j hj hlt => ?_) hreach
  rcases Nat.lt_or_ge j 2 with hone | htwo
  · have hj : j = 1 := by omega
    rw [hj,Int.pow_one]
    exact hbelow
  · obtain ⟨i,rfl⟩ : ∃ i, j = i+1 := ⟨j-1,by omega⟩
    rw [doubled_first]
    exact hfirst i (by omega) (by omega)

theorem backoffLoop_exact (hm : 0 < m.toInt) (n : ℕ) {b : Int64} (hb : 0 < b.toInt)
    (h : FirstReachFits b.toInt m.toInt) :
    (backoffLoop m n b).toInt = min m.toInt (b.toInt*2^n) := by
  induction n generalizing b with
  | zero =>
    simp only [backoffLoop,Int64.lt_iff_toInt_lt,Int.pow_zero,Int.mul_one]
    split_ifs with hpast
    · exact (Int.min_eq_left (Int.le_of_lt hpast)).symm
    · exact (Int.min_eq_right (Int.not_lt.mp hpast)).symm
  | succ n ih =>
    have hmlt := m.toInt_lt
    rw [backoffLoop,doubled_first]
    by_cases hreach : m.toInt ≤ b.toInt*2
    · have hfits := h 1 (Nat.le_refl 1) (by omega) (by rwa [Int.pow_one])
      rw [Int.pow_one] at hfits
      have hdouble := toInt_double_of_small (Int.le_of_lt hb) hfits
      rw [if_pos (Int64.le_iff_toInt_le.mpr (hdouble ▸ hreach))]
      exact (Int.min_eq_left (Int.le_trans hreach (doubled_ge (by omega) n))).symm
    · have hdouble := toInt_double_of_small (Int.le_of_lt hb) (by omega)
      rw [if_neg (by rw [Int64.le_iff_toInt_le,hdouble]; omega)]
      rw [ih (by omega) (hdouble ▸ h.double (by omega)),hdouble]

-- below the maximum the loop only doubles
theorem backoffLoop_skip (k n : ℕ) {b : Int64} (hb : 0 < b.toInt)
    (hfirst : ∀ j, 1 ≤ j → j ≤ k → b.toInt*2^j < m.toInt) :
    ∃ b' : Int64, b'.toInt = b.toInt*2^k ∧ backoffLoop m (k+n) b = backoffLoop m n b' := by
  induction k generalizing b with
  | zero => exact ⟨b,by simp,by rw [Nat.zero_add]⟩
  | succ k ih =>
    have hmlt := m.toInt_lt
    have hbelow : b.toInt*2 < m.toInt := by
      have := hfirst 1 (Nat.le_refl 1) (by omega)
      rwa [Int.pow_one] at this
    have hdouble := toInt_double_of_small (Int.le_of_lt hb) (by omega)
    obtain ⟨b',hb',hloop⟩ := ih (b := b*2) (by omega) fun j hj hjk => by
      have := hfirst (j+1) (by omega) (by omega)
      rwa [doubled_first,← hdouble] at this
    refine ⟨b',by rw [hb',hdouble,doubled_first],?_⟩
    rw [show k+1+n = (k+n)+1 by omega,backoffLoop,
      if_neg (by rw [Int64.le_iff_toInt_le,hdouble]; omega)]
    exact hloop

theorem toInt_double_of_wrap {b : Int64} (h : 2^63 ≤ b.toInt*2) : (b*2).toInt < 0 := by
  have hlt := b.toInt_lt
  have hwrap : (b.toInt*2).bmod (2^64) = b.toInt*2-2^64 := by
    have hmod := Int.sub_mul_bmod_self_right (b.toInt*2) 1 (2^64)
    have hone : (1 : Int)*((2^64 : ℕ) : Int) = 2^64 := rfl
    rw [← hmod,hone]
    exact Int.bmod_eq_of_le (by omega) (by omega)
  rw [toInt_double,hwrap]
  omega

theorem backoffLoop_wraps (hm : 0 < m.toInt) {b : Int64} (h : 2^63 ≤ b.toInt*2) :
    (backoffLoop m 1 b).toInt < 0 := by
  have hwrap := toInt_double_of_wrap h
  have hbelow : ¬ m ≤ b*2 := by
    rw [Int64.le_iff_toInt_le]
    omega
  have hnot : ¬ m < b*2 := by
    rw [Int64.lt_iff_toInt_lt]
    omega
  rw [backoffLoop,if_neg hbelow,backoffLoop,if_neg hnot]
  exact hwrap

theorem exponentialBackoff_of_pos {attempt : Int64} (h : 1 ≤ attempt) (initial maxBackoff : Int64) :
    exponentialBackoff attempt initial maxBackoff =
      backoffLoop maxBackoff (attempt.toInt.toNat-1) initial := by
  have hpos : ¬ attempt ≤ 0 := fun hle => absurd (Int64.le_trans h hle) (by decide)
  rw [exponentialBackoff,if_neg hpos]

theorem doubling_of_fits {initial maxBackoff : Int64} (hb : 0 < initial.toInt)
    (hm : 0 < maxBackoff.toInt) (hfits : FirstReachFits initial.toInt maxBackoff.toInt) :
    SaturatingDoubling initial maxBackoff := by
  have hexact : ∀ attempt, 1 ≤ attempt → (exponentialBackoff attempt initial maxBackoff).toInt =
      min maxBackoff.toInt (initial.toInt*2^(attempt.toInt.toNat-1)) := by
    intro attempt hattempt
    rw [exponentialBackoff_of_pos hattempt]
    exact backoffLoop_exact hm _ hb hfits
  refine ⟨hexact,?_,?_⟩
  · intro attempt hattempt
    rw [Int64.lt_iff_toInt_lt,hexact attempt hattempt]
    have hge := doubled_ge (Int.le_of_lt hb) (attempt.toInt.toNat-1)
    exact Int.lt_min.mpr ⟨hm,Int.lt_of_lt_of_le hb hge⟩
  · intro attempt later hattempt hlater
    rw [Int64.le_iff_toInt_le,hexact attempt hattempt,hexact later (Int64.le_trans hattempt hlater)]
    rw [Int64.le_iff_toInt_le] at hlater
    have hmono := doubled_mono (Int.le_of_lt hb)
      (show attempt.toInt.toNat-1 ≤ later.toInt.toNat-1 by omega)
    exact Int.le_min.mpr ⟨Int.min_le_left _ _,Int.le_trans (Int.min_le_right _ _) hmono⟩

-- the attempt after the first wrapped doubling gets a negative backoff
theorem fits_of_doubling {initial maxBackoff : Int64} (hb : 0 < initial.toInt)
    (hm : 0 < maxBackoff.toInt) (h : SaturatingDoubling initial maxBackoff) :
    FirstReachFits initial.toInt maxBackoff.toInt := by
  intro k hk hfirst hreach
  by_contra hwrap
  -- by the sixty-third doubling some multiple has reached the maximum
  have hsmall : k ≤ 63 := by
    by_contra hlarge
    have hbelow := hfirst 63 (by omega) (by omega)
    have hpast := doubled_past hb maxBackoff.toInt_lt (Nat.le_refl 63)
    omega
  obtain ⟨i,rfl⟩ : ∃ i, k = i+1 := ⟨k-1,by omega⟩
  obtain ⟨b',hb',hloop⟩ := backoffLoop_skip i 1 hb fun j hj hji => hfirst j hj (by omega)
  have hneg := backoffLoop_wraps hm (b := b') (by rw [hb',← doubled]; omega)
  have hattempt : (Int64.ofNat (i+2)).toInt = i+2 := by
    rw [Int64.toInt_ofNat_of_lt (by omega)]
    rfl
  have hone : 1 ≤ Int64.ofNat (i+2) := by
    have honeInt : (1 : Int64).toInt = 1 := rfl
    rw [Int64.le_iff_toInt_le,hattempt]
    omega
  have heq := h.1 _ hone
  rw [exponentialBackoff_of_pos hone,hattempt,show ((i : Int)+2).toNat-1 = i+1 by omega,hloop,
    Int.min_eq_left hreach] at heq
  omega

theorem backoff_doubles_iff (c : PublisherConfig) :
    SaturatingDoubling c.normalize.initialBackoff c.normalize.maxBackoff ↔
      FirstReachFits c.normalize.initialBackoff.toInt c.normalize.maxBackoff.toInt := by
  obtain ⟨hinitial,hmax⟩ := normalize_pos c
  have hb : 0 < c.normalize.initialBackoff.toInt := Int64.lt_iff_toInt_lt.mp hinitial
  have hm : 0 < c.normalize.maxBackoff.toInt := Int64.lt_iff_toInt_lt.mp hmax
  exact ⟨fits_of_doubling hb hm,doubling_of_fits hb hm⟩

-- 2^62 ns doubled is the smallest int64
theorem century_backoff_wraps : ¬ SaturatingDoubling
    (PublisherConfig.normalize ⟨100,4611686018427387904,9223372036854775807⟩).initialBackoff
    (PublisherConfig.normalize ⟨100,4611686018427387904,9223372036854775807⟩).maxBackoff := by
  rintro ⟨_,hpos,_⟩
  exact absurd (hpos 2 (by decide)) (by decide)

end Reliability.Outbox

end Nimburion
