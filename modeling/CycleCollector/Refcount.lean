/-!
# Raw reference counts

A foreign object counts the references to it. While a host counterpart holds on to it, a large
*bias* is added on top, so that the count alone tells a held object from a free one. `stripBias`
takes the bias off and leaves the references that the foreign side holds itself.

Counts are natural numbers here; the foreign heap refuses to raise one to `limit`.

## Main definitions

* `Refcount.hostBias`, `Refcount.lightBias`: the two biases.
* `Refcount.stripBias`: the count without its bias.
-/

namespace CycleCollector.Refcount

/-- A raw count stays below this bound: it is kept in a word of 64 bits. -/
def limit : Nat := 1 <<< 64

/-- Added while a host counterpart holds on to the object. -/
def hostBias : Nat := 1 <<< 62

/-- Added instead of `hostBias` when the host counterpart carries no state of its own. -/
def lightBias : Nat := hostBias + 1 <<< 63

/-- The references that the foreign side holds, whatever bias lies on top of them. -/
def stripBias (raw : Nat) : Nat :=
  if lightBias ≤ raw then raw - lightBias
  else if hostBias ≤ raw then raw - hostBias
  else raw

theorem hostBias_lt_lightBias : hostBias < lightBias := by decide

theorem stripBias_of_lt {raw : Nat} (h : raw < hostBias) : stripBias raw = raw := by
  have := hostBias_lt_lightBias
  rw [stripBias, if_neg (by omega), if_neg (by omega)]

theorem stripBias_hostBias_add {n : Nat} (h : n < 1 <<< 63) : stripBias (hostBias + n) = n := by
  have : hostBias + n < lightBias := Nat.add_lt_add_left h _
  rw [stripBias, if_neg (by omega), if_pos (by omega), Nat.add_sub_cancel_left]

theorem stripBias_lightBias_add (n : Nat) : stripBias (lightBias + n) = n := by
  rw [stripBias, if_pos (by omega), Nat.add_sub_cancel_left]

/-- Uncounting takes at most as much from what is left without the bias. -/
theorem stripBias_le_sub_add (raw n : Nat) : stripBias raw ≤ stripBias (raw - n) + n := by
  have := hostBias_lt_lightBias
  unfold stripBias
  grind

/-- Stripping leaves the upper half of the word free. -/
theorem stripBias_lt {raw : Nat} (h : raw < limit) : stripBias raw < 1 <<< 63 := by
  have host : hostBias ≤ 1 <<< 63 := by decide
  have light : lightBias = hostBias + 1 <<< 63 := rfl
  have whole : limit ≤ lightBias + 1 <<< 63 := by decide
  unfold stripBias
  split <;> try split
  all_goals omega

end CycleCollector.Refcount
