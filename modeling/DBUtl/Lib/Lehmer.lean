import Mathlib.Data.List.Prime
import Mathlib.NumberTheory.LucasPrimality

/-!
# Multiplicative congruential generators

`lehmer A M x₀` is the sequence `x₀, A x₀ mod M, A² x₀ mod M, …`. For a prime modulus and a
start that is not a multiple of it, the sequence returns to its start exactly after the
multiples of the order of `A`. Lucas's test gives the order and the primality together, from the
prime factors of `M - 1`.
-/

namespace DBUtl

/-- The values of a multiplicative congruential generator. -/
def lehmer (A M x₀ : ℤ) : ℕ → ℤ
  | 0 => x₀
  | n + 1 => A * lehmer A M x₀ n % M

variable {A M x₀ : ℤ}

@[simp] theorem lehmer_zero : lehmer A M x₀ 0 = x₀ := rfl

theorem lehmer_succ (n : ℕ) : lehmer A M x₀ (n + 1) = A * lehmer A M x₀ n % M := rfl

theorem lehmer_add (m n : ℕ) : lehmer A M x₀ (m + n) = lehmer A M (lehmer A M x₀ m) n := by
  induction n with
  | zero => rfl
  | succ n ih => rw [Nat.add_succ, lehmer_succ, lehmer_succ, ih]

/-- After the start, the values are residues. -/
theorem lehmer_mem (hM : 0 < M) {n : ℕ} (hn : 1 ≤ n) :
    0 ≤ lehmer A M x₀ n ∧ lehmer A M x₀ n < M := by
  obtain ⟨k, rfl⟩ := Nat.exists_eq_add_of_le' hn
  exact ⟨Int.emod_nonneg _ hM.ne', Int.emod_lt_of_pos _ hM⟩

/-! ## Period -/

section Period

variable {p : ℕ}

theorem cast_lehmer (A x₀ : ℤ) (n : ℕ) :
    ((lehmer A p x₀ n : ℤ) : ZMod p) = (A : ZMod p) ^ n * x₀ := by
  induction n with
  | zero => simp
  | succ n ih => rw [lehmer_succ, ZMod.intCast_mod, Int.cast_mul, ih, pow_succ']; ring

theorem eq_iff_cast {x y : ℤ} (hx : 0 ≤ x ∧ x < p) (hy : 0 ≤ y ∧ y < p) :
    x = y ↔ (x : ZMod p) = y := by
  rw [ZMod.intCast_eq_intCast_iff', Int.emod_eq_of_lt hx.1 hx.2, Int.emod_eq_of_lt hy.1 hy.2]

theorem cast_ne_zero {x : ℤ} (hpos : 0 < x) (hlt : x < p) : (x : ZMod p) ≠ 0 := by
  intro h
  have h0 : x = 0 := (eq_iff_cast ⟨hpos.le, hlt⟩ ⟨le_rfl, by omega⟩).2 (by simpa using h)
  omega

/-- A start below the modulus is a residue like the values after it. -/
theorem lehmer_mem_of_start (hpos : 0 < x₀) (hlt : x₀ < p) (n : ℕ) :
    0 ≤ lehmer A p x₀ n ∧ lehmer A p x₀ n < p := by
  rcases Nat.eq_zero_or_pos n with rfl | hn
  · exact ⟨hpos.le, hlt⟩
  · exact lehmer_mem (by omega) hn

/-- Modulo a prime, a generator gets to zero only from a multiple of the modulus, and from there
at once. -/
theorem lehmer_eq_zero_iff [Fact p.Prime] (hA : (A : ZMod p) ≠ 0) {n : ℕ} (hn : 1 ≤ n) :
    lehmer A p x₀ n = 0 ↔ (p : ℤ) ∣ x₀ := by
  have hp : (0 : ℤ) < p := by exact_mod_cast (Fact.out : p.Prime).pos
  rw [eq_iff_cast (lehmer_mem hp hn) ⟨le_rfl, hp⟩, cast_lehmer, Int.cast_zero, mul_eq_zero,
    ZMod.intCast_zmod_eq_zero_iff_dvd]
  constructor
  · intro h
    exact h.resolve_left (pow_ne_zero n hA)
  · intro h
    exact .inr h

/-- Modulo a prime, a generator that does not start at zero never gets there. -/
theorem lehmer_pos [Fact p.Prime] (hA : (A : ZMod p) ≠ 0) (hpos : 0 < x₀) (hlt : x₀ < p) (n : ℕ) :
    0 < lehmer A p x₀ n := by
  rcases Nat.eq_zero_or_pos n with rfl | hn
  · exact hpos
  · refine lt_of_le_of_ne (lehmer_mem_of_start hpos hlt n).1 ?_
    intro h
    have hdvd := (lehmer_eq_zero_iff hA hn).1 h.symm
    exact hlt.not_ge (Int.le_of_dvd hpos hdvd)

/-- **The generator returns to its start after the multiples of the order of `A`.** -/
theorem lehmer_eq_start_iff [Fact p.Prime] (A : ℤ) (hpos : 0 < x₀) (hlt : x₀ < p) (n : ℕ) :
    lehmer A p x₀ n = x₀ ↔ orderOf (A : ZMod p) ∣ n := by
  rw [eq_iff_cast (lehmer_mem_of_start hpos hlt n) ⟨hpos.le, hlt⟩, cast_lehmer,
    orderOf_dvd_iff_pow_eq_one]
  constructor
  · intro h
    exact mul_right_cancel₀ (cast_ne_zero hpos hlt) (h.trans (one_mul _).symm)
  · intro h
    rw [h, one_mul]

/-- **Lucas's test**, from the list of the prime factors of `p - 1`: it gives that `p` is prime
and that `a` is a primitive root. -/
theorem prime_and_orderOf {a : ZMod p} (factors : List ℕ) (hfac : ∀ q ∈ factors, q.Prime)
    (hprod : factors.prod = p - 1) (h1 : a ^ (p - 1) = 1)
    (hne : ∀ q ∈ factors, a ^ ((p - 1) / q) ≠ 1) : p.Prime ∧ orderOf a = p - 1 := by
  have hdiv : ∀ q : ℕ, q.Prime → q ∣ p - 1 → a ^ ((p - 1) / q) ≠ 1 := by
    intro q hq hqp
    rw [← hprod] at hqp
    exact hne q (mem_list_primes_of_dvd_prod hq.prime (fun r hr => (hfac r hr).prime) hqp)
  have hp := lucas_primality p a h1 hdiv
  exact ⟨hp, orderOf_eq_of_pow_and_pow_div_prime (Nat.sub_pos_of_lt hp.one_lt) h1 hdiv⟩

end Period

end DBUtl
