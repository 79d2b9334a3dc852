import Mathlib.Algebra.BigOperators.Group.List.Basic
import Mathlib.Algebra.Order.Floor.Ring
import Mathlib.Data.Rat.Floor

/-!
# Sizes of the entries of a stack

`allocateStackSizes` of `stack.ts`. The constructor of a stack rounds the options of its entries
down to integers that are not negative; intrinsic sizes, bases and the available size are finite
numbers as they come. Sums, products and quotients are rounded as doubles are, without a bound on
their exponents.
-/

namespace PiAgent.Tui

open List (map)

/-! ## Numbers -/

/-- The integer nearest to `n / d`; of two, the even one. -/
def roundEven (n d : ℕ) : ℕ :=
  if d < 2 * (n % d) ∨ 2 * (n % d) = d ∧ (n / d) % 2 = 1 then n / d + 1 else n / d

/-- The double nearest to an integer: 53 bits. -/
def double (n : ℕ) : ℕ := roundEven n (2 ^ (n.log2 - 52)) * 2 ^ (n.log2 - 52)

def doubleInt (n : ℤ) : ℤ := n.sign * double n.natAbs

/-- `Math.floor(n / d)`, where the quotient is a double. -/
def floorQuotient (n d : ℕ) : ℕ :=
  let bits := (n / d).log2
  if 52 ≤ bits then roundEven n (d * 2 ^ (bits - 52)) * 2 ^ (bits - 52)
  else
    -- below 1 one more place is kept
    let places := if n < d then 53 else 52 - bits
    roundEven (n * 2 ^ places) d / 2 ^ places

def MAX_SAFE_INTEGER : ℕ := 9007199254740991

/-- An entry of a stack; `basis` is none for `"auto"`. -/
structure StackLayoutEntry where
  basis : Option ℚ
  grow : Option ℕ
  shrink : Option ℕ
  minSize : Option ℕ
  maxSize : Option ℕ
  deriving DecidableEq

namespace StackLayoutEntry

def growWeight (entry : StackLayoutEntry) : ℕ := entry.grow.getD 0

def shrinkWeight (entry : StackLayoutEntry) : ℕ := entry.shrink.getD 1

def min (entry : StackLayoutEntry) : ℕ := entry.minSize.getD 0

/-- `entry.maxSize ?? Number.MAX_SAFE_INTEGER` -/
def rawMax (entry : StackLayoutEntry) : ℕ := entry.maxSize.getD MAX_SAFE_INTEGER

/-- The maximum that holds: the minimum goes first. -/
def max (entry : StackLayoutEntry) : ℕ := Max.max entry.min entry.rawMax

end StackLayoutEntry

def clampSize (size : ℚ) (entry : StackLayoutEntry) : ℕ := max entry.min (min entry.max ⌊size⌋.toNat)

inductive DistributeMode where
  | grow
  | shrink
  deriving DecidableEq

/-! ## One round -/

def isCandidate : DistributeMode → StackLayoutEntry → ℕ → Bool
  | .grow, entry, size => entry.growWeight > 0 && size < entry.rawMax
  | .shrink, entry, size => entry.shrinkWeight > 0 && size > entry.min

def weight : DistributeMode → StackLayoutEntry → ℕ → ℕ
  | .grow, entry, _ => entry.growWeight
  | .shrink, entry, size => double (entry.shrinkWeight * max 1 size)

def capacity : DistributeMode → StackLayoutEntry → ℕ → ℕ
  | .grow, entry, size => double (entry.rawMax - size)
  | .shrink, entry, size => double (size - entry.min)

def resize : DistributeMode → ℕ → ℕ → ℕ
  | .grow, size, delta => double (size + delta)
  | .shrink, size, delta => double (size - delta)

def sumDouble (ns : List ℕ) : ℕ := ns.foldl (fun sum n => double (sum + n)) 0

def totalWeight (mode : DistributeMode) (sizes : List (StackLayoutEntry × ℕ)) : ℕ :=
  sumDouble ((sizes.filter (fun s => isCandidate mode s.1 s.2)).map (fun s => weight mode s.1 s.2))

def delta (mode : DistributeMode) (total remaining : ℕ) (entry : StackLayoutEntry) (size : ℕ) : ℕ :=
  let proposed := max 1 (floorQuotient (double (remaining * weight mode entry size)) total)
  min remaining (min proposed (capacity mode entry size))

/-- What a round over the candidates leaves. -/
structure Round where
  sizes : List (StackLayoutEntry × ℕ)
  remaining : ℕ
  /-- `distributed !== 0` -/
  distributed : Bool

def distributeRound (mode : DistributeMode) (total : ℕ) : List (StackLayoutEntry × ℕ) → ℕ → Round
  | [], remaining => ⟨[], remaining, false⟩
  | (entry, size) :: rest, remaining =>
    if isCandidate mode entry size then
      let d := delta mode total remaining entry size
      let after := distributeRound mode total rest (double (remaining - d))
      ⟨(entry, resize mode size d) :: after.sizes, after.remaining, d > 0 || after.distributed⟩
    else
      let after := distributeRound mode total rest remaining
      { after with sizes := (entry, size) :: after.sizes }

/-! ## All rounds -/

/-- The rounds, as many as there is fuel for. -/
def distribute (mode : DistributeMode) : ℕ → List (StackLayoutEntry × ℕ) → ℕ → Option (List (StackLayoutEntry × ℕ))
  | 0, _, _ => none
  | fuel + 1, sizes, remaining =>
    if remaining = 0 then some sizes
    else if sizes.all (fun s => !isCandidate mode s.1 s.2) then some sizes
    else
      let after := distributeRound mode (totalWeight mode sizes) sizes remaining
      if after.distributed then distribute mode fuel after.sizes after.remaining else some after.sizes

def clampedSizes (entries : List StackLayoutEntry) (intrinsicSizes : List ℚ) : List ℕ :=
  entries.zipIdx.map (fun (entry, index) => clampSize (entry.basis.getD (intrinsicSizes[index]?.getD 0)) entry)

def contentSize (entries : List StackLayoutEntry) (availableSize : ℚ) (gap : ℤ) : ℕ :=
  (doubleInt (⌊availableSize⌋ - doubleInt (((entries.length - 1 : ℕ) : ℤ) * gap))).toNat

def allocateStackSizes (fuel : ℕ) (entries : List StackLayoutEntry) (intrinsicSizes : List ℚ)
    (availableSize : Option ℚ) (gap : ℤ) : Option (List ℕ) :=
  let sizes := clampedSizes entries intrinsicSizes
  match availableSize with
  | none => some sizes
  | some availableSize =>
    let content := contentSize entries availableSize gap
    let total := sumDouble sizes
    if total < content then (distribute .grow fuel (entries.zip sizes) (double (content - total))).map (map Prod.snd)
    else if total > content then
      (distribute .shrink fuel (entries.zip sizes) (double (total - content))).map (map Prod.snd)
    else some sizes

end PiAgent.Tui
