/-! Finite binary64 magnitudes. A magnitude is named by its place `code` in the ascending list of
all of them, so 0 is zero, 1 the least positive value, and a successor is the next value up.
Rounding, products and quotients are exact ratios rounded once, to nearest with ties to even. -/
namespace ApiGraph.Number

def binade : Nat := Nat.pow 2 52

def unit : Nat := Nat.pow 2 1074

def overflowCode : Nat := 2047 * binade

def magnitude (code : Nat) : Nat :=
  if code < binade then code else (code % binade + binade) * Nat.pow 2 (code / binade - 1)

def roundHalfEven (num den : Nat) : Nat :=
  let q := num / den
  let r := 2 * (num % den)
  if r < den then q else if r = den then q + q % 2 else q + 1

def nearest (num den : Nat) : Nat :=
  let whole := num * unit / den
  if whole < 2 * binade then roundHalfEven (num * unit) den
  else
    let shift := Nat.log2 whole - 52
    shift * binade + roundHalfEven (num * unit) (den * Nat.pow 2 shift)

def times (a b : Nat) : Nat := nearest (magnitude a * magnitude b) (unit * unit)
def dividedBy (a b : Nat) : Nat := nearest (magnitude a) (magnitude b)
def tenTo (k : Nat) : Nat := nearest (Nat.pow 10 k) 1

structure Double where
  negative : Bool
  code : Nat
  deriving DecidableEq, Repr

def Double.same (a b : Double) : Bool :=
  a.code == b.code && (a.negative == b.negative || a.code == 0)

theorem Double.same_iff (a b : Double) : a.same b = true ↔ a = b ∨ a.code = 0 ∧ b.code = 0 := by
  obtain ⟨s, m⟩ := a
  obtain ⟨t, n⟩ := b
  simp only [Double.same, Bool.and_eq_true, beq_iff_eq, Bool.or_eq_true, Double.mk.injEq]
  constructor
  · rintro ⟨rfl, h | h⟩ <;> simp [h]
  · rintro (⟨rfl, rfl⟩ | ⟨h, h'⟩) <;> simp_all

end ApiGraph.Number
