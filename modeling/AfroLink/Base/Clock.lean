import AfroLink.Base.Word

/-!
# Clocks

Spans of time, to the nanosecond. A span saturates.
-/

/-- At most `u64::MAX` seconds and 999999999 nanoseconds. -/
abbrev Duration := Fin (2 ^ 64 * 10 ^ 9)

instance duration_ne_zero : NeZero (2 ^ 64 * 10 ^ 9) := ⟨by decide⟩

namespace Duration

def fromSecs (secs : U64) : Duration := ⟨secs.val * 10 ^ 9, by have := secs.isLt; omega⟩

def asMillis (d : Duration) : ℕ := d.val / 10 ^ 6

def millis (d : Duration) : U64 := ⟨min d.asMillis (2 ^ 64 - 1), by omega⟩

end Duration
