import Evfilter.Lib.CString

/-!
# Arrays of bytes

An array has a fixed number of bytes. A write has to stay inside, and a string in it is one that ends inside.
-/

namespace Lib

namespace CString

/-- The string that these bytes start with. -/
def ofBytes (bytes : List UInt8) : CString :=
  ⟨bytes.takeWhile (· != 0), fun h => by simpa using List.mem_takeWhile_imp h⟩

theorem ofBytes_append_zero (bytes rest : List UInt8) : ofBytes (bytes ++ 0 :: rest) = ofBytes bytes := by
  refine CString.ext ?_
  change (bytes ++ 0 :: rest).takeWhile (· != 0) = bytes.takeWhile (· != 0)
  induction bytes with
  | nil => simp
  | cons b bytes ih => simp only [List.cons_append, List.takeWhile_cons, ih]

theorem takeWhile_nulFree {bytes : List UInt8} (h : 0 ∉ bytes) : bytes.takeWhile (· != 0) = bytes :=
  List.takeWhile_eq_self_iff.mpr fun b hb => by simpa using fun h0 : b = 0 => h (h0 ▸ hb)

@[simp] theorem ofBytes_bytes (s : CString) : ofBytes s.bytes = s := CString.ext (takeWhile_nulFree s.nulFree)

end CString

structure Buf (n : Nat) where
  bytes : List UInt8
  size : bytes.length = n
deriving DecidableEq

namespace Buf

variable {n : Nat}

/-- These bytes are written from the place `p` on. -/
def write (b : Buf n) (p : Nat) (s : List UInt8) : Option (Buf n) :=
  if h : p + s.length ≤ n then
    some ⟨b.bytes.take p ++ s ++ b.bytes.drop (p + s.length), by
      simp only [List.length_append, List.length_take, List.length_drop, b.size]
      omega⟩
  else none

/-- The string at the place `p`. -/
def string (b : Buf n) (p : Nat) : Option CString :=
  if 0 ∈ b.bytes.drop p then some (CString.ofBytes (b.bytes.drop p)) else none

/-- What `strncpy(buf, s, n)` leaves in an array of `n` bytes: all behind the string is filled up. -/
def strncpy (n : Nat) (s : CString) : Buf n :=
  ⟨(s.bytes ++ List.replicate n 0).take n, by simp⟩

/-- An array that starts with this string. -/
def zeros (n : Nat) : Buf n := ⟨List.replicate n 0, List.length_replicate⟩

variable {b b' : Buf n} {p : Nat} {s : List UInt8} {str : CString}

theorem write_none (h : n < p + s.length) : b.write p s = none := dif_neg (Nat.not_le.mpr h)

theorem write_some (h : p + s.length ≤ n) : ∃ b', b.write p s = some b' := ⟨_, dif_pos h⟩

theorem bytes_write (h : b.write p s = some b') : b'.bytes = b.bytes.take p ++ s ++ b.bytes.drop (p + s.length) := by
  unfold write at h
  split at h
  · exact congrArg bytes (Option.some.inj h).symm
  · cases h

/-- A string that is written with its NUL is there. -/
theorem string_write (h : b.write p (s ++ [0]) = some b') : b'.string p = some (CString.ofBytes s) := by
  have hp : p ≤ b.bytes.length := by
    unfold write at h
    split at h
    · rename_i hle
      rw [b.size]
      omega
    · cases h
  have hlen : (b.bytes.take p).length = p := by rw [List.length_take]; exact Nat.min_eq_left hp
  have hdrop : b'.bytes.drop p = s ++ 0 :: b.bytes.drop (p + (s ++ [0]).length) := by
    rw [bytes_write h, List.append_assoc]
    conv => enter [1, 1]; rw [← hlen]
    rw [List.drop_left, List.append_assoc]
    rfl
  rw [string, hdrop, if_pos (by simp), CString.ofBytes_append_zero]

/-- A string that is written behind the start of an array. -/
theorem write_start {r t : List UInt8} (h : b.bytes = s ++ r) (hfit : s.length + t.length ≤ n) :
    ∃ b', b.write s.length t = some b' ∧ ∃ r', b'.bytes = s ++ t ++ r' := by
  obtain ⟨b', hwrite⟩ := write_some (b := b) hfit
  refine ⟨b', hwrite, b.bytes.drop (s.length + t.length), ?_⟩
  rw [bytes_write hwrite, h, List.take_left]

theorem string_start {r : List UInt8} (h : b.bytes = str.bytes ++ 0 :: r) : b.string 0 = some str := by
  rw [string, List.drop_zero, h, if_pos (by simp), CString.ofBytes_append_zero, CString.ofBytes_bytes]

theorem string_strncpy (hlen : str.strlen < n) (hp : p < n) : (strncpy n str).string p = some (str.drop p) := by
  obtain ⟨m, hm⟩ : ∃ m, n - str.strlen - (p - str.strlen) = m + 1 := ⟨_, (Nat.succ_pred_eq_of_pos (by omega)).symm⟩
  have hbytes : (strncpy n str).bytes.drop p = (str.drop p).bytes ++ 0 :: List.replicate m 0 := by
    change ((str.bytes ++ List.replicate n 0).take n).drop p = _
    have htake : (str.bytes ++ List.replicate n 0).take n = str.bytes ++ List.replicate (n - str.strlen) 0 := by
      rw [List.take_append, List.take_of_length_le hlen.le, List.take_replicate, Nat.min_eq_left (Nat.sub_le _ _)]
      rfl
    rw [htake, List.drop_append, List.drop_replicate]
    exact congrArg (fun k => (str.drop p).bytes ++ List.replicate k 0) hm
  rw [string, hbytes, if_pos (by simp), CString.ofBytes_append_zero, CString.ofBytes_bytes]

/-- `strncpy(buf, s, n + 1); buf[n] = '\0';` -/
theorem string_strncpy_cut {b : Buf (n + 1)} (h : (strncpy (n + 1) str).write n [0] = some b) :
    b.string 0 = some (str.trunc n) := by
  have hbytes : b.bytes = (str.trunc n).bytes ++ 0 :: List.replicate (n - str.strlen) 0 := by
    have hsize : (strncpy (n + 1) str).bytes.drop (n + [(0 : UInt8)].length) = [] :=
      List.drop_of_length_le (strncpy (n + 1) str).size.le
    rw [bytes_write h, hsize, List.append_nil]
    change ((str.bytes ++ List.replicate (n + 1) 0).take (n + 1)).take n ++ [0] = _
    rw [List.take_take, Nat.min_eq_left (Nat.le_succ n), List.take_append, List.take_replicate, List.append_assoc,
      Nat.min_eq_left ((Nat.sub_le _ _).trans (Nat.le_succ n)), ← List.replicate_succ', List.replicate_succ]
    rfl
  exact string_start hbytes

end Buf

end Lib
