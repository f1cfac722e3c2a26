/-
  Byte strings, hashes, times and durations of the source.

  Keys, node IDs and addresses are Go strings, that is, arbitrary byte strings;
  values are byte slices.  The hashes are those of `hash/fnv`.  A `time.Time` is
  a number of nanoseconds, a `time.Duration` a signed 64-bit one, and `TtlMs` a
  signed 64-bit number of milliseconds.
-/
import Mathlib

namespace DistCache

/-- A Go string (or byte slice). -/
abbrev GoString := List UInt8

/-- Strings are compared byte by byte. -/
instance : LawfulBEq GoString := inferInstance

/-- A cache key. -/
abbrev Key := GoString

/-- A cached value. -/
abbrev Value := List UInt8

/-- The identifier of a physical node. -/
abbrev NodeID := GoString

/-- A Go map: a finite map, with no order on its entries. -/
abbrev GoMap (κ α : Type) := Finmap fun _ : κ => α

/-- An instant (`time.Time`), in nanoseconds. -/
abbrev Time := ℤ

/-- A duration (`time.Duration`), in nanoseconds. -/
abbrev Duration := Int64

/-! ## Strings and hashes -/

/-- The bytes of a string of ASCII characters. -/
def ascii (cs : List Char) : GoString := cs.map fun c => c.toNat.toUInt8

/-- The rendering of a non-negative integer by `%d`. -/
def itoa (n : ℕ) : GoString := ascii (Nat.toDigits 10 n)

/-- `fnv.New32a`: the 32-bit FNV-1a hash. -/
def fnv32a (s : GoString) : UInt32 :=
  s.foldl (fun h b => (h ^^^ b.toUInt32) * 16777619) 2166136261

/-- `fnv.New64a`: the 64-bit FNV-1a hash. -/
def fnv64a (s : GoString) : UInt64 :=
  s.foldl (fun h b => (h ^^^ b.toUInt64) * 1099511628211) 14695981039346656037

/-! ## Durations -/

/-- `time.Millisecond`. -/
def millisecond : Duration := 1000000

/-- The duration of a `TtlMs` field: `time.Duration(ms) * time.Millisecond` if
    `ms > 0`, the zero duration otherwise. -/
def ttlOfMs (ms : Int64) : Duration := if 0 < ms then ms * millisecond else 0

/-- `Duration.Milliseconds`: the duration in milliseconds, truncated. -/
def Duration.milliseconds (d : Duration) : Int64 := d / millisecond

/-- `Time.Sub`: the duration from `u` to `t`, saturated to the range of a
    duration. -/
def timeSub (t u : Time) : Duration := Int64.ofInt (max (-2 ^ 63) (min (2 ^ 63 - 1) (t - u)))

@[simp] theorem ttlOfMs_zero : ttlOfMs 0 = 0 := rfl

@[simp] theorem Duration.milliseconds_zero : Duration.milliseconds 0 = 0 := by decide

/-! ## Counters -/

/-- A counter that is not at its limit grows. -/
theorem lt_succ_of_toNat_lt {i : UInt64} (h : i.toNat < 2 ^ 64 - 1) : i < i + 1 := by
  refine UInt64.lt_add_one fun he => ?_
  rw [he] at h
  exact absurd h (by decide)

end DistCache
