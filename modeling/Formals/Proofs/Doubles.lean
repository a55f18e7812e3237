import Mathlib
import Formals.Proofs.Printing

/-!
# Different doubles, different texts

A double has at most 53 binary digits (`Double.Representable`), and so it is the one that is nearest
to every number close to it (`Double.round_near`). The decimal with its seventeen first digits is
close enough, so some digits are found that it is read back from (`Double.roundedFrom_shortest`),
and different doubles have different texts (`Double.eq_of_text`).
-/

namespace Formals

/-! ## Rounding -/

section

variable {p q a : Nat}

/-- The nearest whole number is at most a half away. -/
theorem nearestQuotient_near (hq : 0 < q) :
    2 * (p - nearestQuotient p q * q) ≤ q ∧ 2 * (nearestQuotient p q * q - p) ≤ q := by
  have hdiv := Nat.div_add_mod' p q
  have hmod := Nat.mod_lt p hq
  rw [nearestQuotient]
  split
  · omega
  · rw [Nat.add_one_mul (p / q)]
    omega

/-- A whole number that is less than a half away is the nearest. -/
theorem nearestQuotient_eq (hbelow : 2 * (p - a * q) < q) (habove : 2 * (a * q - p) < q) :
    nearestQuotient p q = a := by
  have hq : 0 < q := by omega
  rcases Nat.le_total (a * q) p with hle | hle
  · have hdiv : p / q = a := by
      rw [show p = p - a * q + a * q by omega, Nat.add_mul_div_right _ _ hq,
        Nat.div_eq_of_lt (by omega), Nat.zero_add]
    have hmod : p % q = p - a * q := by
      have := Nat.div_add_mod' p q
      rw [hdiv] at this
      omega
    rw [nearestQuotient, hdiv, hmod, if_pos (by omega)]
  · obtain rfl | hlt := hle.eq_or_lt
    · rw [nearestQuotient, Nat.mul_div_cancel _ hq, Nat.mul_mod_left, if_pos (by omega)]
    · obtain ⟨b, rfl⟩ : ∃ b, a = b + 1 := ⟨a - 1, by cases a <;> simp_all⟩
      rw [Nat.add_one_mul b] at habove hlt
      have hdiv : p / q = b := by
        rw [show p = p - b * q + b * q by omega, Nat.add_mul_div_right _ _ hq,
          Nat.div_eq_of_lt (by omega), Nat.zero_add]
      have hmod : p % q = p - b * q := by
        have := Nat.div_add_mod' p q
        rw [hdiv] at this
        omega
      rw [nearestQuotient, hdiv, hmod, if_neg (by omega)]

end

namespace Double

/-- A double has at most 53 binary digits before its last zeros, unless it is so small that its last
digit is one unit. -/
def Representable (x : Double) : Prop := 2 ^ (Nat.log2 x.units - 52) ∣ x.units

section

variable {u p q : Nat}

/-- Below `2 ^ 53` every whole number is a double, and the last digit is one unit. -/
theorem log2_near_small (hu : u < 2 ^ 53) (hq : 0 < q)
    (hbelow : 2 * 10 ^ 16 * (p - u * q) ≤ u * q) : Nat.log2 (p / q) - 52 = 0 := by
  have hle : u * q ≤ 2 ^ 53 * q := Nat.mul_le_mul_right q hu.le
  have hmore : (u + 1) * q = u * q + q := Nat.add_one_mul u q
  have hdiv : p / q < u + 1 := (Nat.div_lt_iff_lt_mul hq).2 (by omega)
  rcases Nat.eq_zero_or_pos (p / q) with hzero | hdivpos
  · rw [hzero]
    rfl
  · have := (Nat.log2_lt (k := 53) hdivpos.ne').2 (by omega)
    omega

/-- From `2 ^ 53` on a double is a number of 53 binary digits, followed by zeros. -/
theorem exists_significand (hu : 2 ^ 53 ≤ u) (hdvd : 2 ^ (Nat.log2 u - 52) ∣ u) :
    ∃ k m, u = 2 ^ (k + 1) * m ∧ 2 ^ 52 ≤ m ∧ m < 2 ^ 53 := by
  have hpos : u ≠ 0 := (Nat.lt_of_lt_of_le (Nat.two_pow_pos 53) hu).ne'
  obtain ⟨k, hk⟩ : ∃ k, Nat.log2 u = 53 + k := Nat.exists_eq_add_of_le ((Nat.le_log2 hpos).2 hu)
  have hlow : 2 ^ (53 + k) ≤ u := (Nat.le_log2 hpos).1 hk.ge
  have hhigh : u < 2 ^ (54 + k) := (Nat.log2_lt hpos).1 (by omega)
  rw [show Nat.log2 u - 52 = k + 1 by omega] at hdvd
  obtain ⟨m, rfl⟩ := hdvd
  refine ⟨k, m, rfl, Nat.le_of_mul_le_mul_left ?_ (Nat.two_pow_pos (k + 1)),
    Nat.lt_of_mul_lt_mul_left (a := 2 ^ (k + 1)) ?_⟩
  · rwa [← Nat.pow_add, show k + 1 + 52 = 53 + k by omega]
  · rwa [← Nat.pow_add, show k + 1 + 53 = 54 + k by omega]

/-- Near a double of 53 binary digits the last digit stands for as much as that of the double, or
for half as much right below the least double of its length. -/
theorem log2_near_large {k m : Nat} (hm : 2 ^ 52 ≤ m) (hm' : m < 2 ^ 53) (hq : 0 < q)
    (hbelow : 2 * 10 ^ 16 * (p - 2 * (m * (2 ^ k * q))) ≤ 2 * (m * (2 ^ k * q)))
    (habove : 2 * 10 ^ 16 * (2 * (m * (2 ^ k * q)) - p) ≤ 2 * (m * (2 ^ k * q))) :
    Nat.log2 (p / q) - 52 = k + 1 ∨
      Nat.log2 (p / q) - 52 = k ∧ m = 2 ^ 52 ∧ p < 2 ^ 53 * (2 ^ k * q) := by
  -- everything is counted in halves of the last digit of the double
  have hpower : ∀ n, 2 ^ (n + k) * q = 2 ^ n * (2 ^ k * q) := fun n => by rw [pow_add, mul_assoc]
  have hlt : ∀ n, p / q < 2 ^ n ↔ p < 2 ^ n * q := fun n => Nat.div_lt_iff_lt_mul hq
  have hwpos : 0 < 2 ^ k * q := Nat.mul_pos (Nat.two_pow_pos k) hq
  generalize 2 ^ k * q = w at hbelow habove hpower hwpos ⊢
  have hleast : 2 ^ 52 * w ≤ m * w := Nat.mul_le_mul_right w hm
  have hgreatest : (m + 1) * w ≤ 2 ^ 53 * w := Nat.mul_le_mul_right w hm'
  rw [Nat.add_one_mul] at hgreatest
  have hdiv : 2 ^ (52 + k) ≤ p / q ∧ p / q < 2 ^ (54 + k) := by
    rw [hlt, Nat.le_div_iff_mul_le hq, hpower, hpower]
    omega
  have hdivpos : p / q ≠ 0 := (Nat.lt_of_lt_of_le (Nat.two_pow_pos _) hdiv.1).ne'
  have hleLog := (Nat.le_log2 hdivpos).2 hdiv.1
  have hlogLt := (Nat.log2_lt hdivpos).2 hdiv.2
  rcases Nat.lt_or_ge (Nat.log2 (p / q)) (53 + k) with hlog | hlog
  · have hp := (Nat.log2_lt hdivpos).1 hlog
    rw [hlt, hpower] at hp
    refine .inr ⟨by omega, ?_, hp⟩
    by_contra hne
    have hmore : (2 ^ 52 + 1) * w ≤ m * w := Nat.mul_le_mul_right w (by omega)
    rw [Nat.add_one_mul] at hmore
    omega
  · exact .inl (by omega)

/-- The place of the last digit of a number near a double: of the double itself, or one below if the
double is the least with its number of digits. -/
theorem log2_near (hu : 2 ^ (Nat.log2 u - 52) ∣ u) (hq : 0 < q)
    (hbelow : 2 * 10 ^ 16 * (p - u * q) ≤ u * q) (habove : 2 * 10 ^ 16 * (u * q - p) ≤ u * q) :
    2 ^ (Nat.log2 (p / q) - 52) ∣ u ∧ 2 * (p - u * q) < q * 2 ^ (Nat.log2 (p / q) - 52) ∧
      2 * (u * q - p) < q * 2 ^ (Nat.log2 (p / q) - 52) := by
  rcases Nat.lt_or_ge u (2 ^ 53) with hsmall | hlarge
  · have hle : u * q ≤ 2 ^ 53 * q := Nat.mul_le_mul_right q hsmall.le
    rw [log2_near_small hsmall hq hbelow, pow_zero]
    exact ⟨Nat.one_dvd u, by omega, by omega⟩
  · obtain ⟨k, m, rfl, hm, hm'⟩ := exists_significand hlarge hu
    have hunits : 2 ^ (k + 1) * m * q = 2 * (m * (2 ^ k * q)) := by ring
    have hwpos : 0 < 2 ^ k * q := Nat.mul_pos (Nat.two_pow_pos k) hq
    have hgreatest : m * (2 ^ k * q) ≤ 2 ^ 53 * (2 ^ k * q) := Nat.mul_le_mul_right _ hm'.le
    rw [hunits] at hbelow habove ⊢
    rcases log2_near_large hm hm' hq hbelow habove with hlog | ⟨hlog, rfl, hp⟩
    · rw [hlog, show q * 2 ^ (k + 1) = 2 * (2 ^ k * q) by ring]
      exact ⟨Nat.dvd_mul_right _ _, by omega, by omega⟩
    · rw [hlog, mul_comm q]
      exact ⟨Dvd.dvd.mul_right (pow_dvd_pow 2 (Nat.le_succ k)) _, by omega, by omega⟩

end

/-- **Rounding.** A double is the nearest to every number that is as close to it as its first
seventeen digits are. -/
theorem round_near {x : Double} (hx : x.Representable) {p q : Nat} (hq : 0 < q)
    (hbelow : 2 * 10 ^ 16 * (p - x.units * q) ≤ x.units * q)
    (habove : 2 * 10 ^ 16 * (x.units * q - p) ≤ x.units * q) : round p q = x := by
  obtain ⟨hdvd, hp, hp'⟩ := log2_near hx hq hbelow habove
  obtain ⟨a, ha⟩ := hdvd
  have hmul : x.units * q = a * (q * 2 ^ (Nat.log2 (p / q) - 52)) := by
    rw [mul_comm a, mul_assoc q, ← ha, mul_comm]
  rw [hmul] at hp hp'
  have hnearest : nearestQuotient p (q * 2 ^ (Nat.log2 (p / q) - 52)) = a :=
    nearestQuotient_eq hp hp'
  change Double.mk (nearestQuotient p (q * 2 ^ (Nat.log2 (p / q) - 52)) *
    2 ^ (Nat.log2 (p / q) - 52)) = x
  rw [hnearest, mul_comm, ← ha]

/-- What is rounded is a double. -/
theorem representable_round (p q : Nat) : (round p q).Representable := by
  obtain ⟨e, he⟩ : ∃ e, e = Nat.log2 (p / q) - 52 := ⟨_, rfl⟩
  have hunits : (round p q).units = nearestQuotient p (q * 2 ^ e) * 2 ^ e := by
    rw [he]
    rfl
  have hdigits : nearestQuotient p (q * 2 ^ e) ≤ 2 ^ 53 := by
    have hfloor : p / (q * 2 ^ e) < 2 ^ 53 := by
      rw [← Nat.div_div_eq_div_mul, Nat.div_lt_iff_lt_mul (Nat.two_pow_pos e), ← Nat.pow_add]
      exact Nat.lt_of_lt_of_le Nat.lt_log2_self (Nat.pow_le_pow_right (by decide) (by omega))
    rw [nearestQuotient]
    split <;> omega
  rw [Representable, hunits]
  rcases hdigits.eq_or_lt with heq | hlt
  · rw [heq, ← Nat.pow_add, Nat.log2_two_pow]
    exact pow_dvd_pow 2 (by omega)
  · rcases Nat.eq_zero_or_pos (nearestQuotient p (q * 2 ^ e)) with hzero | hpos
    · rw [hzero, Nat.zero_mul]
      exact Nat.dvd_zero _
    · refine Dvd.dvd.mul_left (pow_dvd_pow 2 ?_) _
      have hlog : Nat.log2 (nearestQuotient p (q * 2 ^ e) * 2 ^ e) < 53 + e := by
        rw [Nat.log2_lt (Nat.mul_pos hpos (Nat.two_pow_pos e)).ne', Nat.pow_add]
        exact Nat.mul_lt_mul_of_pos_right hlt (Nat.two_pow_pos e)
      omega

/-! ## Digits -/

/-- A double is rounded from `digits * 10 ^ exponent`. -/
def RoundedFrom (x : Double) (digits : Nat) (exponent : Int) : Prop :=
  ∃ places : Nat, exponent = places - 1074 ∧ round (digits * 10 ^ places) unitInDecimal = x

/-- Digits are divided by a positive number to be rounded. -/
theorem unitInDecimal_pos : 0 < unitInDecimal := by decide +kernel

/-- The digits that are found are those of the double. -/
theorem roundedFrom_of_withDigits? {x : Double} {count digits : Nat} {exponent : Int}
    (h : x.withDigits? count = some (digits, exponent)) : x.RoundedFrom digits exponent := by
  obtain ⟨found, hfound, heq⟩ := Option.map_eq_some_iff.1 h
  cases heq
  exact ⟨_, rfl, by simpa using List.find?_some hfound⟩

/-- Seventeen digits are always enough. -/
theorem isSome_withDigits? {x : Double} (hx : x.Representable) : (x.withDigits? 17).isSome := by
  rw [withDigits?, Option.isSome_map, List.find?_isSome]
  refine ⟨_, List.mem_cons_self, ?_⟩
  rw [beq_iff_eq]
  obtain ⟨exact, hexact⟩ : ∃ n, n = x.units * unitInDecimal := ⟨_, rfl⟩
  obtain ⟨dropped, hdropped⟩ : ∃ n, n = (Nat.toDigits 10 exact).length - 17 := ⟨_, rfl⟩
  rw [← hexact, ← hdropped]
  have hpos : 0 < 10 ^ dropped := Nat.pow_pos (by decide)
  obtain ⟨hbelow, habove⟩ := nearestQuotient_near (p := exact) hpos
  have hsmall : 10 ^ 16 * 10 ^ dropped ≤ exact ∨ 10 ^ dropped = 1 := by
    rcases Nat.eq_zero_or_pos dropped with hzero | hdroppedPos
    · exact .inr (by rw [hzero, pow_zero])
    · refine .inl (Nat.le_of_not_lt fun hlt => ?_)
      have := Nat.toDigits_length 10 exact (16 + dropped) (by omega) (by rwa [pow_add])
      omega
  refine round_near hx unitInDecimal_pos ?_ ?_ <;> rw [← hexact]
  · change 2 * 10 ^ 16 * (nearestQuotient exact (10 ^ dropped) * 10 ^ dropped - exact) ≤ exact
    omega
  · change 2 * 10 ^ 16 * (exact - nearestQuotient exact (10 ^ dropped) * 10 ^ dropped) ≤ exact
    omega

/-- A last zero is moved to the exponent. -/
theorem RoundedFrom.strip {x : Double} {digits : Nat} {exponent : Int}
    (h : x.RoundedFrom digits exponent) (hzero : digits % 10 = 0) :
    x.RoundedFrom (digits / 10) (exponent + 1) := by
  obtain ⟨places, rfl, hround⟩ := h
  refine ⟨places + 1, by push_cast; ring, ?_⟩
  rwa [pow_succ, mul_comm _ 10, ← mul_assoc, Nat.div_mul_cancel (Nat.dvd_of_mod_eq_zero hzero)]

/-- What is found among some items, or that nothing is. -/
theorem exists_of_findSome? {α β : Type} {f : α → Option β} {xs : List α} {found : Option β}
    (h : xs.findSome? f = found) :
    (∃ x ∈ xs, ∃ b, f x = some b ∧ found = some b) ∨ (∀ x ∈ xs, f x = none) ∧ found = none := by
  subst h
  cases h : xs.findSome? f with
  | some b =>
    obtain ⟨x, hx, hb⟩ := List.exists_of_findSome?_eq_some h
    exact .inl ⟨x, hx, b, hb, rfl⟩
  | none => exact .inr ⟨List.findSome?_eq_none_iff.1 h, rfl⟩

/-- Moves one last zero of some digits to the exponent. -/
def stripped : Nat × Int → Nat × Int
  | (digits, exponent) =>
    if digits % 10 = 0 then (digits / 10, exponent + 1) else (digits, exponent)

/-- Moving a zero is the function that the definition of the search has written out. -/
theorem stripped_eq : stripped = fun decimal => match decimal with
    | (digits, exponent) =>
      if digits % 10 = 0 then (digits / 10, exponent + 1) else (digits, exponent) := rfl

/-- The search and what is done with what it finds. Both equations are of functions, since one of
values would be checked by running the search. -/
theorem shortest_eq : shortest = fun x => stripped
    (((List.range 17).findSome? fun n => x.withDigits? (n + 1)).getD (0, 0)) := by
  rw [stripped_eq]
  delta shortest
  exact rfl

/-- A double is rounded from the digits that are found for it. For what is no double, none may be
found. -/
theorem roundedFrom_shortest (x : Double) : x.RoundedFrom x.shortest.1 x.shortest.2 ∨
    ¬x.Representable ∧ x.shortest = (0, 1) := by
  have hs := congrFun shortest_eq x
  beta_reduce at hs
  rw [hs]
  clear hs
  generalize hfound : (List.range 17).findSome? (fun n => x.withDigits? (n + 1)) = found
  obtain ⟨n, -, ⟨digits, exponent⟩, hn, rfl⟩ | ⟨hnone, rfl⟩ := exists_of_findSome? hfound
  · have hround := roundedFrom_of_withDigits? hn
    rw [Option.getD_some, stripped]
    split
    case isTrue hzero => exact .inl (hround.strip hzero)
    case isFalse => exact .inl hround
  · refine .inr ⟨fun hx => ?_, rfl⟩
    have hsome := isSome_withDigits? hx
    have hnone := hnone 16 (List.mem_range.2 (by decide))
    rw [hnone] at hsome
    cases hsome

end Double

/-! ## Numerals -/

/-- A number as it is written: the digits before the point, those after it and an exponent, if there
are any. -/
structure Numeral where
  whole : List Char
  fraction : Option (List Char)
  exponent : Option Int

namespace Numeral

/-- The point and the digits after it. -/
def fractionText (n : Numeral) : List Char := n.fraction.elim [] ('.' :: ·)

/-- The mark of an exponent and the exponent. -/
def exponentText (n : Numeral) : List Char :=
  n.exponent.elim [] fun e => 'e' :: (toString e).toList

/-- A numeral as text. -/
def text (n : Numeral) : List Char := n.whole ++ n.fractionText ++ n.exponentText

/-- All digits of a numeral. -/
def digits (n : Numeral) : List Char := n.whole ++ n.fraction.getD []

/-- The number that a numeral stands for. -/
def value (n : Numeral) : ℚ :=
  Nat.ofDigitChars 10 n.digits 0 * 10 ^ (n.exponent.getD 0 - (n.fraction.getD []).length)

/-- The digits are digits. -/
def Fine (n : Numeral) : Prop := ∀ c ∈ n.digits, c.isDigit = true

/-- In front of the point there are digits only. -/
theorem Fine.of_mem_whole {n : Numeral} (h : n.Fine) {c : Char} (hc : c ∈ n.whole) :
    c.isDigit = true := h c (List.mem_append_left _ hc)

/-- From the point on there are digits only, but for the point. -/
theorem Fine.of_mem_fractionText {n : Numeral} (h : n.Fine) {c : Char} (hc : c ∈ n.fractionText) :
    c = '.' ∨ c.isDigit = true := by
  cases hfraction : n.fraction with
  | none => simp [fractionText, hfraction] at hc
  | some fraction =>
    simp only [fractionText, hfraction, Option.elim_some, List.mem_cons] at hc
    exact hc.imp_right fun hc => h c (List.mem_append_right _ (by simpa [hfraction] using hc))

/-- The digits behind the point are told by their text, and so is that there are none. -/
theorem fractionText_injective {m n : Numeral} (h : m.fractionText = n.fractionText) :
    m.fraction = n.fraction := by
  unfold fractionText at h
  cases hm : m.fraction <;> cases hn : n.fraction <;> simp_all

/-- The exponent is told by its text, and so is that there is none. -/
theorem exponentText_injective {m n : Numeral} (h : m.exponentText = n.exponentText) :
    m.exponent = n.exponent := by
  unfold exponentText at h
  cases hm : m.exponent <;> cases hn : n.exponent <;> simp_all
  exact eq_of_toString (String.toList_inj.1 h)

/-- Different numerals are written differently. -/
theorem eq_of_text {m n : Numeral} (hm : m.Fine) (hn : n.Fine) (h : m.text = n.text) : m = n := by
  have hmantissa : ∀ {n : Numeral}, n.Fine → ∀ c ∈ n.whole ++ n.fractionText,
      (c == 'e') = false := by
    intro n hn c hc
    rcases List.mem_append.1 hc with hc | hc
    · exact beq_false_of_ne fun heq => by cases heq ▸ hn.of_mem_whole hc
    · rcases hn.of_mem_fractionText hc with rfl | hdigit
      · rfl
      · exact beq_false_of_ne fun heq => by cases heq ▸ hdigit
  have hwhole : ∀ {n : Numeral}, n.Fine → ∀ c ∈ n.whole, (c == '.') = false := fun hn c hc =>
    beq_false_of_ne fun heq => by cases heq ▸ hn.of_mem_whole hc
  have hfraction : ∀ n : Numeral, ∀ c ∈ n.fractionText.head?, (c == '.') = true := fun n => by
    unfold fractionText
    cases n.fraction <;> simp
  have hexponent : ∀ n : Numeral, ∀ c ∈ n.exponentText.head?, (c == 'e') = true := fun n => by
    unfold exponentText
    cases n.exponent <;> simp
  obtain ⟨hmantissas, hexponents⟩ := Json.append_unique (p := (· == 'e')) (hmantissa hm)
    (hmantissa hn) (hexponent m) (hexponent n) h
  obtain ⟨hwholes, hfractions⟩ := Json.append_unique (p := (· == '.')) (hwhole hm) (hwhole hn)
    (hfraction m) (hfraction n) hmantissas
  obtain ⟨whole, fraction, exponent⟩ := m
  obtain ⟨whole', fraction', exponent'⟩ := n
  obtain rfl : whole = whole' := hwholes
  obtain rfl : fraction = fraction' := fractionText_injective hfractions
  obtain rfl : exponent = exponent' := exponentText_injective hexponents
  rfl

end Numeral

namespace Double

section

variable {digits : List Char} (hdigits : ∀ c ∈ digits, c.isDigit = true)

include hdigits

/-- A numeral whose digits are some digits between zeros. Those after them multiply. -/
theorem fine_and_value {n : Numeral} (front behind : Nat) {exponent : Int}
    (hall : n.digits = zeros front ++ digits ++ zeros behind)
    (hplaces : behind + n.exponent.getD 0 - (n.fraction.getD []).length = exponent) :
    n.Fine ∧ n.value = Nat.ofDigitChars 10 digits 0 * 10 ^ exponent := by
  have hzeros : ∀ k, ∀ c ∈ zeros k, c.isDigit = true := fun k c hc =>
    (List.mem_replicate.1 hc).2 ▸ rfl
  constructor
  · intro c hc
    rw [hall] at hc
    rcases List.mem_append.1 hc with hc | hc
    · exact (List.mem_append.1 hc).elim (hzeros front c) (hdigits c)
    · exact hzeros behind c hc
  · have hvalue : Nat.ofDigitChars 10 n.digits 0 = 10 ^ behind * Nat.ofDigitChars 10 digits 0 := by
      rw [hall, Nat.ofDigitChars_append, Nat.ofDigitChars_append, zeros, zeros,
        Nat.ofDigitChars_replicate_zero, Nat.ofDigitChars_replicate_zero, Nat.mul_zero]
    have hten : (10 : ℚ) ≠ 0 := by norm_num
    rw [Numeral.value, hvalue, ← hplaces, add_sub_assoc, zpow_add₀ hten, zpow_natCast]
    push_cast
    ring

/-- Digits in their place are a numeral for the digits times a power of ten. -/
theorem exists_numeral (hne : digits ≠ []) (exponent : Int) :
    ∃ n : Numeral, n.text = placed digits exponent ∧ n.Fine ∧
      n.value = Nat.ofDigitChars 10 digits 0 * 10 ^ exponent := by
  have hlength := List.length_pos_of_ne_nil hne
  simp only [placed]
  split
  case isTrue hwhole =>
    obtain ⟨n, rfl⟩ := Int.eq_ofNat_of_zero_le hwhole.1
    refine ⟨⟨digits ++ zeros n, some ['0'], none⟩, ?_,
      fine_and_value hdigits 0 (n + 1) ?_ ?_⟩
    · simp [Numeral.text, Numeral.fractionText, Numeral.exponentText]
    · simp [Numeral.digits, zeros, List.replicate_succ']
    · simp
  case isFalse =>
    split
    case isTrue hpoint =>
      obtain ⟨point, hp⟩ := Int.eq_ofNat_of_zero_le hpoint.1.le
      refine ⟨⟨digits.take point, some (digits.drop point), none⟩, ?_,
        fine_and_value hdigits 0 0 ?_ ?_⟩
      · simp [Numeral.text, Numeral.fractionText, Numeral.exponentText, hp]
      · simp [Numeral.digits, zeros]
      · simp only [Option.getD_none, Option.getD_some, List.length_drop]
        omega
    case isFalse hpoint =>
      split
      case isTrue hbehind =>
        obtain ⟨n, hn⟩ := Int.eq_ofNat_of_zero_le (neg_nonneg.2 hbehind.2)
        refine ⟨⟨['0'], some (zeros n ++ digits), none⟩, ?_,
          fine_and_value hdigits (n + 1) 0 ?_ ?_⟩
        · simp [Numeral.text, Numeral.fractionText, Numeral.exponentText, hn]
        · simp [Numeral.digits, zeros, List.replicate_succ]
        · simp only [Option.getD_none, Option.getD_some, List.length_append, zeros,
            List.length_replicate]
          omega
      case isFalse =>
        have hdrop : (if (digits.drop 1).isEmpty then none else some (digits.drop 1)).getD [] =
            digits.drop 1 := by
          split
          case isTrue h => exact (List.isEmpty_iff.1 h).symm
          case isFalse => rfl
        refine ⟨⟨digits.take 1, if (digits.drop 1).isEmpty then none else some (digits.drop 1),
          some (digits.length + exponent - 1)⟩, ?_, fine_and_value hdigits 0 0 ?_ ?_⟩
        · simp only [Numeral.text, Numeral.fractionText, Numeral.exponentText, Option.elim_some]
          split <;> rfl
        · simp only [Numeral.digits, hdrop, zeros, List.replicate_zero, List.nil_append,
            List.append_nil, List.take_append_drop]
        · simp only [hdrop, Option.getD_some, List.length_drop]
          omega

end

/-- Zero is rounded to zero. -/
theorem round_zero (q : Nat) : round 0 q = ⟨0⟩ := by
  have hnearest : ∀ q, nearestQuotient 0 q = 0 := fun q => by
    rw [nearestQuotient, Nat.zero_div, Nat.zero_mod, if_pos (by omega)]
  change Double.mk (nearestQuotient 0 _ * _) = _
  rw [hnearest, Nat.zero_mul]

/-- The digits and the exponent that a double is written with. -/
theorem exists_written (x : Double) : ∃ digits exponent,
    x.text.toList = placed (Nat.toDigits 10 digits) exponent ∧
      (x.RoundedFrom digits exponent ∨ ¬x.Representable ∧ digits = 0 ∧ exponent = 1) := by
  rw [text]
  split
  case isTrue hzero =>
    refine ⟨0, 0, rfl, .inl ⟨1074, rfl, ?_⟩⟩
    obtain rfl : x = ⟨0⟩ := by rw [← hzero]
    rw [Nat.zero_mul, round_zero]
  case isFalse =>
    have hs := x.roundedFrom_shortest
    revert hs
    generalize x.shortest = s
    obtain ⟨digits, exponent⟩ := s
    intro hs
    exact ⟨digits, exponent, String.toList_ofList, hs.imp_right fun h => ⟨h.1, Prod.mk.inj h.2⟩⟩

/-- Decimals of the same value are rounded to the same double. -/
theorem RoundedFrom.eq {x y : Double} {digits digits' : Nat} {exponent exponent' : Int}
    (hx : x.RoundedFrom digits exponent) (hy : y.RoundedFrom digits' exponent')
    (h : (digits : ℚ) * 10 ^ exponent = digits' * 10 ^ exponent') : x = y := by
  obtain ⟨places, rfl, rfl⟩ := hx
  obtain ⟨places', rfl, rfl⟩ := hy
  have hpow : ∀ n : Nat, (10 : ℚ) ^ ((n : Int) - 1074) = 10 ^ n * (10 ^ 1074)⁻¹ := fun n => by
    rw [zpow_sub₀ (by norm_num), zpow_natCast, div_eq_mul_inv]
    norm_cast
  rw [hpow, hpow, ← mul_assoc, ← mul_assoc] at h
  have hcancel := mul_right_cancel₀ (inv_ne_zero (pow_ne_zero 1074 (by norm_num))) h
  rw [show digits * 10 ^ places = digits' * 10 ^ places' by exact_mod_cast hcancel]

/-- **Doubles.** A double is written as nothing else is. -/
theorem eq_of_text {x y : Double} (hx : x.Representable) (h : y.text = x.text) : y = x := by
  obtain ⟨d, e, hxt, hxr⟩ := x.exists_written
  obtain ⟨d', e', hyt, hyr⟩ := y.exists_written
  have hdigits : ∀ n, ∀ c ∈ Nat.toDigits 10 n, c.isDigit = true := fun n c hc =>
    Nat.isDigit_of_mem_toDigits (by decide) (by decide) hc
  obtain ⟨n, hn, hfine, hvalue⟩ := exists_numeral (hdigits d) Nat.toDigits_ne_nil e
  obtain ⟨n', hn', hfine', hvalue'⟩ := exists_numeral (hdigits d') Nat.toDigits_ne_nil e'
  have hnumeral : n' = n := by
    refine Numeral.eq_of_text hfine' hfine ?_
    rw [hn, hn', ← hxt, ← hyt, h]
  rw [hnumeral, hvalue, Nat.ofDigitChars_toDigits (by decide) (by decide),
    Nat.ofDigitChars_toDigits (by decide) (by decide)] at hvalue'
  rcases hxr with hxr | ⟨hnot, -⟩
  · rcases hyr with hyr | ⟨-, rfl, rfl⟩
    · exact hyr.eq hxr hvalue'.symm
    · -- What is no double is written as zero, with a zero more than zero itself.
      have hpow : (10 : ℚ) ^ e ≠ 0 := zpow_ne_zero e (by norm_num)
      have hzero : d = 0 := by simpa [hpow] using hvalue'
      subst hzero
      obtain ⟨places, -, hround⟩ := hxr
      rw [Nat.zero_mul, round_zero] at hround
      subst hround
      rw [h] at hyt
      cases hyt
  · exact absurd hx hnot

end Double

end Formals
