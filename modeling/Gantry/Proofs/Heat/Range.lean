import Mathlib
import Gantry.Config.Basic
import Gantry.Proofs.Heat.Power

/-!
# Heaters that stay in range

A stock heater on a clock of short ticks, sent to temperatures of any moderate size. Above `968`
degrees it loses more than it can be heated with, and below `24` degrees it gains from its
surroundings, so the temperature turns back before it leaves the range from `-8` to `1000`: in one
tick it changes by `16` degrees at most.
-/

namespace Gantry

open Number

namespace Body

variable {b d : Body Float} {temp x last p dt capacity : Float} {q l : ℤ}

def flux (b : BodyConfig Float) (temp : Float) : Float :=
  (temp - b.envTemp) * b.kHeat +
    (fourth (kelvin temp) - fourth (kelvin b.envTemp)) * stefanBoltzmann

theorem heatLoss_eq (b : BodyConfig Float) (temp : Float) :
    heatLoss b temp = b.surface * flux b temp :=
  rfl

theorem square_within {m n : ℤ} (hx : Within x m n) (hm : 0 ≤ m) (hn : n * n ≤ 2 ^ 53) :
    Within (x * x) (m * m : ℤ) (n * n : ℤ) := by
  have hmn : m ≤ n := by exact_mod_cast hx.ge.trans hx.le
  have hmm : m * m ≤ m * n := mul_le_mul_of_nonneg_left hmn hm
  have hnn : n * m ≤ n * n := mul_le_mul_of_nonneg_left hmn (hm.trans hmn)
  have hend {k : ℤ} (h0 : 0 ≤ k) (hk : k ≤ 2 ^ 53) : Endpoint k :=
    endpoint_int k (by rwa [abs_of_nonneg h0])
  refine hx.mul hx (by exact_mod_cast hm) (hend (mul_self_nonneg m) (by linarith))
    (hend (mul_self_nonneg n) hn) ⟨?_, ?_⟩ ⟨?_, ?_⟩
  · norm_cast
  · exact_mod_cast hmm
  · exact_mod_cast hnn
  · norm_cast

theorem fourth_le {n : ℤ} (h0 : 0 ≤ n) (hn : n ≤ 1300) :
    n * n ≤ 1300 * 1300 ∧ n * n * (n * n) ≤ 1300 * 1300 * (1300 * 1300) := by
  have hsq : n * n ≤ 1300 * 1300 := mul_le_mul hn hn h0 (by norm_num)
  exact ⟨hsq, mul_le_mul hsq hsq (mul_self_nonneg n) (by norm_num)⟩

theorem fourth_within {m n : ℤ} (hx : Within x m n) (hm : 0 ≤ m) (hn : n ≤ 1300) :
    Within (fourth x) (m * m * (m * m) : ℤ) (n * n * (n * n) : ℤ) := by
  have hmn : m ≤ n := by exact_mod_cast hx.ge.trans hx.le
  obtain ⟨hsq, hfourth⟩ := fourth_le (hm.trans hmn) hn
  exact square_within (square_within hx hm (hsq.trans (by norm_num))) (mul_self_nonneg m)
    (hfourth.trans (by norm_num))

theorem radiation_within {m n : ℤ} (hf : Within (fourth (kelvin temp)) m n) (hm : 0 ≤ m)
    (hn : n ≤ 1300 * 1300 * (1300 * 1300)) {r s : ℤ} (hr : Endpoint r) (hs : Endpoint s)
    (hge : (r : ℚ) ≤ (m - 7903000000) * (243 / 2 ^ 32) ∧
      (r : ℚ) ≤ (m - 7903000000) * (244 / 2 ^ 32))
    (hle : (n - 7902000000) * (243 / 2 ^ 32) ≤ (s : ℚ) ∧
      (n - 7902000000) * (244 / 2 ^ 32) ≤ (s : ℚ)) :
    Within ((fourth (kelvin temp) - fourth (kelvin 25.0)) * stefanBoltzmann) r s := by
  have hsurroundings : Within (fourth (kelvin 25.0)) 7902000000 7903000000 := by
    constructor <;> decide +kernel
  have hconstant : Within stefanBoltzmann (243 / 2 ^ 32) (244 / 2 ^ 32) := by
    constructor <;> decide +kernel
  have hmn : m ≤ n := by exact_mod_cast hf.ge.trans hf.le
  have hbalance : Within (fourth (kelvin temp) - fourth (kelvin 25.0))
      (m - 7903000000 : ℤ) (n - 7902000000 : ℤ) := by
    refine hf.sub hsurroundings (endpoint_int _ ?_) (endpoint_int _ ?_) ?_ ?_
    · rw [abs_le]
      omega
    · rw [abs_le]
      omega
    · push_cast
      exact le_rfl
    · push_cast
      exact le_rfl
  refine hbalance.mul hconstant (by norm_num) hr hs ?_ ?_
  · push_cast
    exact hge
  · push_cast
    exact hle

theorem kelvin_within {lo hi : ℤ} (ht : Within temp lo hi) (hlo : -273 ≤ lo) (hhi : hi ≤ 1000) :
    Within (kelvin temp) (lo + 273 : ℤ) (hi + 274 : ℤ) := by
  have hzero : Within 273.15 273 274 := by
    constructor <;> decide +kernel
  have hmn : lo ≤ hi := by exact_mod_cast ht.ge.trans ht.le
  refine ht.add hzero (endpoint_int _ ?_) (endpoint_int _ ?_) ?_ ?_
  · rw [abs_of_nonneg (by omega)]
    omega
  · rw [abs_of_nonneg (by omega)]
    omega
  · push_cast
    exact le_rfl
  · push_cast
    exact le_rfl

theorem conduction_within {k : Float} (hk : Within k 15 25) {lo hi : ℤ} (ht : Within temp lo hi)
    (hlo : -1000 ≤ lo) (hhi : hi ≤ 1000) {p q : ℤ} (hp : Endpoint p) (hq : Endpoint q)
    (hge : (p : ℚ) ≤ (lo - 25) * 15 ∧ (p : ℚ) ≤ (lo - 25) * 25)
    (hle : (hi - 25) * 15 ≤ (q : ℚ) ∧ (hi - 25) * 25 ≤ (q : ℚ)) :
    Within ((temp - 25.0) * k) p q := by
  have henv : Within 25.0 25 25 := by
    constructor <;> decide +kernel
  have hmn : lo ≤ hi := by exact_mod_cast ht.ge.trans ht.le
  have hdiff : Within (temp - 25.0) (lo - 25 : ℤ) (hi - 25 : ℤ) := by
    refine ht.sub henv (endpoint_int _ ?_) (endpoint_int _ ?_) ?_ ?_
    · rw [abs_le]
      omega
    · rw [abs_le]
      omega
    · push_cast
      exact le_rfl
    · push_cast
      exact le_rfl
  refine hdiff.mul hk (by norm_num) hp hq ?_ ?_
  · push_cast
    exact hge
  · push_cast
    exact hle

structure Conducts (c : BodyConfig Float) : Prop where
  envTemp : c.envTemp = 25.0
  kHeat : Within c.kHeat 15 25

namespace Conducts

variable {c : BodyConfig Float}

/-- The flux over a range of temperatures, from whole numbers that enclose what is conducted and
what is radiated at its ends. -/
theorem flux_within (h : Conducts c) {lo hi : ℤ} (ht : Within temp lo hi) (hlo : -8 ≤ lo)
    (hhi : hi ≤ 1000) (p q r s : ℤ) (hends : ∀ n ∈ [p, q, r, s, p + r, q + s], |n| ≤ 2 ^ 53)
    (hpq : ((p : ℚ) ≤ (lo - 25) * 15 ∧ (p : ℚ) ≤ (lo - 25) * 25) ∧
      (hi - 25) * 15 ≤ (q : ℚ) ∧ (hi - 25) * 25 ≤ (q : ℚ))
    (hr : ∀ c ∈ [(243 / 2 ^ 32 : ℚ), 244 / 2 ^ 32],
      r ≤ ((lo + 273) * (lo + 273) * ((lo + 273) * (lo + 273)) - 7903000000) * c)
    (hs : ∀ c ∈ [(243 / 2 ^ 32 : ℚ), 244 / 2 ^ 32],
      ((hi + 274) * (hi + 274) * ((hi + 274) * (hi + 274)) - 7902000000) * c ≤ s) :
    Within (flux c temp) (p + r : ℤ) (q + s : ℤ) := by
  simp only [List.forall_mem_cons, List.not_mem_nil, false_implies, implies_true, and_true] at *
  obtain ⟨hp, hq, hr0, hs0, hpr, hqs⟩ := hends
  have hfourth := fourth_within (kelvin_within ht (by omega) hhi) (by omega) (by omega)
  have hmn : lo ≤ hi := by exact_mod_cast ht.ge.trans ht.le
  have htop := (fourth_le (show 0 ≤ hi + 274 by omega) (by omega)).2
  have hradiation := radiation_within hfourth (mul_self_nonneg _) htop (endpoint_int r hr0)
    (endpoint_int s hs0) (by push_cast; exact hr) (by push_cast; exact hs)
  have hconduction := conduction_within h.kHeat ht (by omega) hhi (endpoint_int p hp)
    (endpoint_int q hq) hpq.1 hpq.2
  unfold flux
  rw [h.envTemp]
  exact hconduction.add hradiation (endpoint_int _ hpr) (endpoint_int _ hqs)
    (Int.cast_add p r).le (Int.cast_add q s).ge

theorem flux_warm (h : Conducts c) (ht : Within temp (-8 : ℤ) (1000 : ℤ)) :
    Within (flux c temp) (-1024) 180000 :=
  (h.flux_within ht le_rfl le_rfl (-825) 24375 (-199) 150000 (by norm_num) (by norm_num)
    (by norm_num) (by norm_num)).mono (by norm_num) (by norm_num)

theorem flux_hot (h : Conducts c) (ht : Within temp (968 : ℤ) (1000 : ℤ)) :
    Within (flux c temp) 131072 180000 :=
  (h.flux_within ht (by norm_num) le_rfl 0 24375 131072 150000 (by norm_num) (by norm_num)
    (by norm_num) (by norm_num)).mono (by norm_num) (by norm_num)

theorem flux_cold (h : Conducts c) (ht : Within temp (-8 : ℤ) (24 : ℤ)) :
    Within (flux c temp) (-1024) 0 :=
  (h.flux_within ht le_rfl (by norm_num) (-825) 0 (-199) 0 (by norm_num) (by norm_num)
    (by norm_num) (by norm_num)).mono (by norm_num) (by norm_num)

end Conducts

/-- What a heater exchanges with its surroundings, the net power being at most `2 ^ q`. -/
structure Exchange (c : BodyConfig Float) (q : ℤ) : Prop where
  hPower : Within c.hPower 0 (2 ^ (q - 1))
  warm : ∀ temp, Within temp (-8 : ℤ) (1000 : ℤ) → Within (heatLoss c temp) (-2 ^ (q - 1)) (2 ^ q)
  /-- A hot body loses more than it can be heated with. -/
  hot : ∀ temp, Within temp (968 : ℤ) (1000 : ℤ) → toRat c.hPower ≤ toRat (heatLoss c temp)
  /-- A cold body gains. -/
  cold : ∀ temp, Within temp (-8 : ℤ) (24 : ℤ) → toRat (heatLoss c temp) ≤ 0

/-- The exchange of a heater from its surface, in parts of `2 ^ 16`, and from its power. -/
theorem exchange_of_surface {c : BodyConfig Float} (h : Conducts c) (m n power : ℤ)
    (hs : Within c.surface (m / 2 ^ 16) (n / 2 ^ 16)) (hp : Within c.hPower power power)
    (hq : 1 ≤ q ∧ q ≤ 100) (hm : 0 ≤ m) (h0 : 0 ≤ power ∧ power ≤ 2 ^ 53)
    (hroom : (power : ℚ) ≤ 2 ^ (q - 1)) (hhot : (power : ℚ) * 2 ^ 16 ≤ 131072 * m)
    (hlow : 1024 * (n : ℚ) ≤ 2 ^ (q - 1) * 2 ^ 16) (hhigh : 180000 * (n : ℚ) ≤ 2 ^ q * 2 ^ 16) :
    Exchange c q := by
  have hm0 : (0 : ℚ) ≤ m / 2 ^ 16 := by positivity
  have hmn : (m / 2 ^ 16 : ℚ) ≤ n / 2 ^ 16 := hs.ge.trans hs.le
  have hlow' : 1024 * (n / 2 ^ 16 : ℚ) ≤ 2 ^ (q - 1) := by linarith
  have hhigh' : 180000 * (n / 2 ^ 16 : ℚ) ≤ 2 ^ q := by linarith
  have hbottom : Endpoint (-2 ^ (q - 1)) := (endpoint_two_zpow (by omega) (by omega)).neg
  have htop : Endpoint (2 ^ q) := endpoint_two_zpow (by omega) (by omega)
  have hpower : (0 : ℚ) ≤ power := by exact_mod_cast h0.1
  refine ⟨hp.mono hpower hroom, fun temp ht => ?_, fun temp ht => ?_, fun temp ht => ?_⟩
  · rw [heatLoss_eq]
    exact hs.mul_left (h.flux_warm ht) hm0 hbottom htop ⟨by linarith, by linarith⟩
      ⟨by linarith, by linarith⟩
  · have hloss : Within (heatLoss c temp) power (2 ^ q) := by
      rw [heatLoss_eq]
      refine hs.mul_left (h.flux_hot ht) hm0 (endpoint_int power ?_) htop
        ⟨by linarith, by linarith⟩ ⟨by linarith, by linarith⟩
      rw [abs_of_nonneg h0.1]
      exact h0.2
    exact hp.le.trans hloss.ge
  · rw [heatLoss_eq]
    exact (hs.mul_left (h.flux_cold ht) hm0 hbottom endpoint_zero ⟨by linarith, by linarith⟩
      ⟨by linarith, by linarith⟩).le

def stockConfig (k : HeaterId) : BodyConfig Float :=
  (ofConfig 25.0 (HeaterConfig.stock k)).config

/-- The net power of a stock heater is at most `2 ^ surge k`. -/
def surge : HeaterId → ℤ
  | .nozzle => 8
  | .plate => 13

theorem exchange_stock (k : HeaterId) : Exchange (stockConfig k) (surge k) := by
  have hconducts : Conducts (stockConfig k) := by
    refine ⟨by cases k <;> rfl, ?_⟩
    cases k <;> constructor <;> decide +kernel
  cases k with
  | nozzle =>
    refine exchange_of_surface hconducts 65 66 120 ?_ ?_ (by decide) (by norm_num) (by norm_num)
      (by norm_num [surge]) (by norm_num) (by norm_num [surge]) (by norm_num [surge])
    · constructor <;> decide +kernel
    · constructor <;> decide +kernel
  | plate =>
    refine exchange_of_surface hconducts 2621 2622 240 ?_ ?_ (by decide) (by norm_num)
      (by norm_num) (by norm_num [surge]) (by norm_num) (by norm_num [surge])
      (by norm_num [surge])
    · constructor <;> decide +kernel
    · constructor <;> decide +kernel

/-- The change of temperature in a tick: small, and on the side of zero of the net power. -/
theorem step_of_power {s : Float} (hs : Bounded s (q + 1))
    (hdt : Upto dt (-3)) (hc : capacity.isFinite = true) (hl : 2 ^ l ≤ toRat capacity)
    (hq : q ≤ l + 7) (hfit : 1 ≤ q ∧ q ≤ 100) :
    Bounded (s * dt / 2.0 / capacity) 4 ∧
      (0 ≤ toRat s → 0 ≤ toRat (s * dt / 2.0 / capacity)) ∧
      (toRat s ≤ 0 → toRat (s * dt / 2.0 / capacity) ≤ 0) := by
  have htwo : (2 : ℚ) ^ (1 : ℤ) ≤ toRat 2.0 := by decide +kernel
  have htwofin : (2.0 : Float).isFinite = true := by decide +kernel
  have htwopos : 0 < toRat 2.0 := by decide +kernel
  have hcpos : 0 < toRat capacity := lt_of_lt_of_le (by positivity) hl
  have hprod : Bounded (s * dt) (q - 2) := hs.mul hdt.bounded (by omega) ⟨by omega, by omega⟩
  have hhalf : Bounded (s * dt / 2.0) (q - 3) :=
    hprod.div htwofin htwo (by omega) ⟨by omega, by omega⟩
  have hstep : Bounded (s * dt / 2.0 / capacity) 4 := hhalf.div hc hl (by omega)
  have hsprod := Bounded.sign_of_rounded (mul_rounded hs.isFinite hdt.isFinite)
    (hs.abs_mul_le hdt.bounded (show q + 1 + -3 ≤ q by omega)) (by omega)
  have hshalf := Bounded.sign_of_rounded (div_rounded hprod.isFinite htwofin htwopos.ne')
    (hprod.abs_div_le htwo (show q - 2 - 1 ≤ q by omega)) (by omega)
  have hsstep := Bounded.sign_of_rounded (div_rounded hhalf.isFinite hc hcpos.ne')
    (hhalf.abs_div_le hl (show q - 3 - l ≤ 4 by omega)) (by norm_num)
  refine ⟨hstep, fun h => ?_, fun h => ?_⟩
  · have h1 := hsprod.1 (mul_nonneg h hdt.ge)
    have h2 := hshalf.1 (div_nonneg h1 htwopos.le)
    exact hsstep.1 (div_nonneg h2 hcpos.le)
  · have h1 := hsprod.2 (mul_nonpos_of_nonpos_of_nonneg h hdt.ge)
    have h2 := hshalf.2 (div_nonpos_of_nonpos_of_nonneg h1 htwopos.le)
    exact hsstep.2 (div_nonpos_of_nonpos_of_nonneg h2 hcpos.le)

/-- A temperature in its range, with the net power of the last tick: near the ends of the range the
power leads back. -/
structure Turns (temp last : Float) : Prop where
  range : Within temp (-8 : ℤ) (1000 : ℤ)
  hot : toRat temp ≤ 984 ∨ toRat last ≤ 0
  cold : 8 ≤ toRat temp ∨ 0 ≤ toRat last

theorem Turns.bounded (h : Turns temp last) : Bounded temp 10 := by
  refine h.range.mono ?_ ?_ <;> norm_num

theorem Exchange.power {c : BodyConfig Float} (h : Exchange c q) {powerIn : Float}
    (ht : Within temp (-8 : ℤ) (1000 : ℤ)) (hp : Within powerIn 0 (toRat c.hPower))
    (hq : 1 ≤ q ∧ q ≤ 100) :
    Bounded (powerIn - heatLoss c temp) q ∧
      (968 ≤ toRat temp → toRat (powerIn - heatLoss c temp) ≤ 0) ∧
      (toRat temp ≤ 24 → 0 ≤ toRat (powerIn - heatLoss c temp)) := by
  have hloss := h.warm temp ht
  have hhalf : (2 : ℚ) ^ q = 2 ^ (q - 1) + 2 ^ (q - 1) := by
    rw [← mul_two, ← zpow_add_one₀ (by norm_num), sub_add_cancel]
  have hpos : (0 : ℚ) < 2 ^ (q - 1) := by positivity
  have hround := sub_rounded hp.isFinite hloss.isFinite
  have habs : |toRat powerIn - toRat (heatLoss c temp)| ≤ 2 ^ q := by
    rw [abs_le]
    constructor
    · linarith [hp.ge, hloss.le]
    · linarith [hp.le, h.hPower.le, hloss.ge]
  have hsign := Bounded.sign_of_rounded hround habs (by omega)
  refine ⟨Bounded.of_rounded hround habs ⟨by omega, by omega⟩, fun hhot => ?_, fun hcold => ?_⟩
  · apply hsign.2
    have := h.hot temp ⟨ht.isFinite, by exact_mod_cast hhot, ht.le⟩
    linarith [hp.le]
  · apply hsign.1
    have := h.cold temp ⟨ht.isFinite, ht.ge, by exact_mod_cast hcold⟩
    linarith [hp.ge]

/-- A tick keeps a temperature in its range. -/
theorem Turns.tick (h : Turns temp last) (hlast : Bounded last q) (hpower : Bounded p q)
    (hhot : 968 ≤ toRat temp → toRat p ≤ 0) (hcold : toRat temp ≤ 24 → 0 ≤ toRat p)
    (hdt : Upto dt (-3)) (hc : capacity.isFinite = true) (hl : 2 ^ l ≤ toRat capacity)
    (hq : q ≤ l + 7) (hfit : 1 ≤ q ∧ q ≤ 100) :
    Turns (temp + (p + last) * dt / 2.0 / capacity) p := by
  have hsum : Bounded (p + last) (q + 1) :=
    hpower.add hlast le_rfl le_rfl ⟨by omega, by omega⟩
  obtain ⟨hsumpos, hsumneg⟩ := Bounded.sign_of_rounded
    (add_rounded hpower.isFinite hlast.isFinite) (hpower.add_le hlast le_rfl le_rfl) (by omega)
  obtain ⟨hstep, hup, hdown⟩ := step_of_power hsum hdt hc hl hq hfit
  obtain ⟨hge, hle⟩ := abs_le.mp (bounded_iff.mp hstep).2
  have hge : -16 ≤ toRat ((p + last) * dt / 2.0 / capacity) := by
    refine le_trans ?_ hge
    norm_num
  have hle : toRat ((p + last) * dt / 2.0 / capacity) ≤ 16 := by
    refine hle.trans ?_
    norm_num
  have hround := add_rounded h.range.isFinite hstep.isFinite
  have hsmall {n : ℤ} (hn : |n| ≤ 2 ^ 20) : Endpoint n := endpoint_int n (hn.trans (by norm_num))
  -- Near the ends of the range both powers lead back.
  have hbottom : (-8 : ℚ) ≤ toRat temp + toRat ((p + last) * dt / 2.0 / capacity) := by
    rcases h.cold with hcool | hlast0
    · linarith
    · rcases le_total (toRat temp) 24 with hlow | hlow
      · have := hup (hsumpos (add_nonneg (hcold hlow) hlast0))
        have := h.range.ge
        push_cast at this
        linarith
      · linarith
  have htop : toRat temp + toRat ((p + last) * dt / 2.0 / capacity) ≤ (1000 : ℚ) := by
    rcases h.hot with hwarm | hlast0
    · linarith
    · rcases le_total 968 (toRat temp) with hhigh | hhigh
      · have := hdown (hsumneg (add_nonpos (hhot hhigh) hlast0))
        have := h.range.le
        push_cast at this
        linarith
      · linarith
  have hmem (lo hi : ℤ) (hlo : |lo| ≤ 2 ^ 20) (hhi : |hi| ≤ 2 ^ 20)
      (hge : (lo : ℚ) ≤ toRat temp + toRat ((p + last) * dt / 2.0 / capacity))
      (hle : toRat temp + toRat ((p + last) * dt / 2.0 / capacity) ≤ (hi : ℚ)) :
      Within (temp + (p + last) * dt / 2.0 / capacity) lo hi :=
    hround.within (hsmall hlo) (hsmall hhi) hge hle
  refine ⟨hmem _ _ (by norm_num) (by norm_num) (by exact_mod_cast hbottom)
    (by exact_mod_cast htop), ?_, ?_⟩
  · rcases le_total 968 (toRat temp) with hhigh | hhigh
    · exact Or.inr (hhot hhigh)
    · have hcool := hmem (-8) 984 (by norm_num) (by norm_num)
        (by exact_mod_cast hbottom) (by push_cast; linarith)
      exact Or.inl (by exact_mod_cast hcool.le)
  · rcases le_total (toRat temp) 24 with hlow | hlow
    · exact Or.inr (hcold hlow)
    · have hwarm := hmem 8 1000 (by norm_num) (by norm_num)
        (by push_cast; linarith) (by exact_mod_cast htop)
      exact Or.inl (by exact_mod_cast hwarm.ge)

/-- A stock heater in its range, at the time of its last tick. -/
structure Tame (k : HeaterId) (now : Float) (b : Body Float) : Prop where
  config : b.config = stockConfig k
  guarded : b.Guarded (HeaterConfig.stock k).hPower
  kp : Bounded b.control.kp 5
  ki : Bounded b.control.ki 5
  windUp : b.control.windUp = (HeaterConfig.stock k).windUp
  setPoint : Bounded b.control.setPoint 964
  lastError : Bounded b.control.lastError 965
  integral : Bounded b.control.integral 5
  powerIn : b.powerIn.isFinite = true
  lastPower : Bounded b.lastPower (surge k)
  turns : Turns b.temperature b.lastPower
  lastTime : ∀ last, b.lastTime = some last → last = now
  controlTime : ∀ last, b.control.lastTime = some last → last = now

theorem tame_stock (k : HeaterId) (now : Float) :
    (ofConfig 25.0 (HeaterConfig.stock k)).Tame k now := by
  have hguards : (HeaterConfig.stock k : HeaterConfig Float).Guards := by
    apply HeaterConfig.guards (k := k)
    cases k <;> decide +kernel
  have hturns : Turns 25.0 0.0 := by
    refine ⟨⟨?_, ?_, ?_⟩, Or.inl ?_, Or.inl ?_⟩ <;> decide +kernel
  have hzero (n : ℤ) : Bounded 0.0 n := (Upto.zero n).bounded
  refine ⟨rfl, guarded_ofConfig hguards 25.0, ?_, ?_, rfl, hzero _, hzero _, hzero _,
    isFinite_zero, hzero _, hturns, nofun, nofun⟩
  · cases k <;> constructor <;> decide +kernel
  · cases k <;> constructor <;> decide +kernel

variable {k : HeaterId} {now time celsius : Float}

theorem Tame.setTemperature (h : b.Tame k now) (hc : Bounded celsius 964) :
    (b.setTemperature celsius).Tame k now :=
  { h with
    guarded := h.guarded.change (.heat b celsius)
    setPoint := hc }

theorem Tame.sized (h : b.Tame k now) (ht : Upto (time - now) (-3)) :
    b.Sized time 5 965 0 := by
  refine ⟨h.kp, h.ki, h.setPoint.mono, h.turns.bounded.mono, h.lastError, h.integral.mono, ?_⟩
  unfold Regulator.elapsed
  cases hl : b.control.lastTime with
  | none => exact (Upto.zero _).bounded
  | some last =>
    simp only [h.controlTime last hl]
    exact ht.bounded.mono

theorem windUp_stock (k : HeaterId) :
    ∃ bound, (HeaterConfig.stock k).windUp = some bound ∧ Bounded (Scalar.abs bound) 5 ∧
      Bounded (-Scalar.abs bound) 5 := by
  cases k with
  | nozzle =>
    refine ⟨10.0, rfl, ?_, ?_⟩
    · constructor <;> decide +kernel
    · constructor <;> decide +kernel
  | plate =>
    refine ⟨30.0, rfl, ?_, ?_⟩
    · constructor <;> decide +kernel
    · constructor <;> decide +kernel

theorem Tame.control (h : b.Tame k now) (ht : Upto (time - now) (-3)) {control : Regulator Float}
    {power : Float} (hheat : b.heat time = .ok (control, power)) :
    Bounded control.integral 5 ∧ Bounded control.lastError 965 ∧
      control.setPoint = b.control.setPoint ∧
      ∀ last, control.lastTime = some last → last = time := by
  rcases heat_cases hheat with ⟨-, rfl, -⟩ | ⟨-, out, hrun, -⟩
  · exact ⟨(Upto.zero _).bounded, (Upto.zero _).bounded, rfl, nofun⟩
  · obtain ⟨y, hy, rfl, -⟩ := Regulator.run_cases hrun
    have hsized := h.sized ht
    refine ⟨?_, ?_, rfl, fun last hl => (Option.some.inj hl).symm⟩
    · obtain ⟨bound, hbound, habs, hneg⟩ := windUp_stock k
      have hfree := (hsized.integral_free (by norm_num) le_rfl (by norm_num)).isNaN
      unfold Regulator.integrate at hy
      simp only [h.windUp, hbound] at hy
      split at hy
      · rename_i held hheld
        cases hy
        obtain ⟨hge, hle⟩ := clamp?_mem hheld hfree
        exact (within_of_mem hneg.isFinite habs.isFinite hge hle).mono hneg.ge habs.le
      · cases hy
    · exact h.setPoint.sub (h.turns.bounded.mono (show (10 : ℤ) ≤ 964 by norm_num))

theorem Tame.run (h : b.Tame k now) (ht : Upto (time - now) (-3)) (hrun : b.run time = .ok d) :
    d.Tame k time := by
  obtain ⟨control, p, ha⟩ := advances_of_run hrun
  obtain ⟨hintegral, herror, hset, htime⟩ := h.control ht ha.heat
  obtain ⟨hkp, hki, -, -, hwind⟩ := ha.control_same
  have hpower : Scalar.isPositive (HeaterConfig.stock k : HeaterConfig Float).hPower = true := by
    cases k <;> decide +kernel
  have hin : Within d.powerIn 0 (toRat b.config.hPower) := by
    obtain ⟨hge, hle⟩ := h.guarded.power_of_sized hpower (h.sized ht) (by norm_num) (by norm_num)
      (by norm_num) (by norm_num) hrun
    rw [h.guarded.hPower]
    exact toRat_zero ▸ within_of_mem isFinite_zero (isPositive_iff.mp hpower).1 hge hle
  have helapsed : Upto (b.elapsed time) (-3) := by
    unfold elapsed
    cases hl : b.lastTime with
    | none => exact .zero _
    | some last =>
      simp only [h.lastTime last hl]
      exact ht
  have hexchange : Exchange b.config (surge k) := h.config ▸ exchange_stock k
  have hsurge : 1 ≤ surge k ∧ surge k ≤ 100 := by cases k <;> decide
  obtain ⟨hnet, hhot, hcold⟩ := hexchange.power h.turns.range hin hsurge
  rw [ha.powerIn, ← ha.lastPower] at hnet hhot hcold
  have hcapacity : (b.config.cHeat * b.config.mass).isFinite = true ∧
      2 ^ (surge k - 7) ≤ toRat (b.config.cHeat * b.config.mass) := by
    rw [h.config]
    cases k <;> constructor <;> decide +kernel
  have hturns := h.turns.tick h.lastPower hnet hhot hcold helapsed hcapacity.1 hcapacity.2
    (by omega) hsurge
  refine ⟨ha.config.trans h.config, h.guarded.change (.run time hrun), hkp ▸ h.kp, hki ▸ h.ki,
    hwind.trans h.windUp, ?_, ?_, ?_, hin.isFinite, hnet, ?_, ?_, ?_⟩
  · rw [ha.control, hset]
    exact h.setPoint
  · rw [ha.control]
    exact herror
  · rw [ha.control]
    exact hintegral
  · rw [ha.temperature]
    exact hturns
  · intro last hl
    rw [ha.lastTime] at hl
    exact (Option.some.inj hl).symm
  · rw [ha.control]
    exact htime

end Body

end Gantry
