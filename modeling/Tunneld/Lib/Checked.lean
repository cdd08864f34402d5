import Tunneld.Lib.BigEndian

/-!
# Access with bounds

Reading a slice at an index, or taking a part of it, is a fault where the bounds are not kept.  A
parser written with these functions tells input that it refuses (`Fault.bad`) from an access that is
out of range (`Fault.outOfRange`), so that "no access is out of range" is a statement about its
result.  Where the bounds are kept, the functions are those of lists (`get_eq`, `sliceFrom_eq`, …).

A function that makes one check after another, and ends with the error of the first that fails, is
taken apart check by check where it succeeds (`ok_of_check`).
-/

namespace Checked

universe u v

/-- Why there is no result. -/
inductive Fault (ε : Type u)
  | bad (e : ε)
  | outOfRange
  deriving DecidableEq

variable {α : Type v} {β : Type v} {ε : Type u}

/-- `b[i]`. -/
def get (b : List α) (i : Nat) : Except (Fault ε) α :=
  match b[i]? with
  | some a => .ok a
  | none => .error .outOfRange

/-- `b[i:]`. -/
def sliceFrom (b : List α) (i : Nat) : Except (Fault ε) (List α) :=
  if i ≤ b.length then .ok (b.drop i) else .error .outOfRange

/-- `b[:j]`. -/
def sliceTo (b : List α) (j : Nat) : Except (Fault ε) (List α) :=
  if j ≤ b.length then .ok (b.take j) else .error .outOfRange

/-- `b[i:j]`. -/
def slice (b : List α) (i j : Nat) : Except (Fault ε) (List α) :=
  if i ≤ j ∧ j ≤ b.length then .ok ((b.take j).drop i) else .error .outOfRange

/-- The number in the two bytes at an index, the high one first. -/
def word (b : List UInt8) (i : Nat) : Except (Fault ε) Nat := do
  let hi ← get b i
  let lo ← get b (i + 1)
  return hi.toNat * 256 + lo.toNat

variable {b : List α} {i j : Nat}

/-- A check that does not end in its error has been passed. -/
theorem ok_of_check {p : Prop} [Decidable p] {e : ε} {x : Except ε α} {a : α}
    (h : (if p then .error e else x) = .ok a) : ¬ p ∧ x = .ok a := by
  split at h
  · cases h
  · rename_i hp
    exact ⟨hp, h⟩

@[simp] theorem ok_bind (a : α) (f : α → Except (Fault ε) β) :
    (Except.ok a >>= f) = f a := rfl

theorem get_eq (h : i < b.length) : (get b i : Except (Fault ε) α) = .ok b[i] := by
  rw [get, List.getElem?_eq_getElem h]

@[simp] theorem get_zero (a : α) : (get (a :: b) 0 : Except (Fault ε) α) = .ok a := rfl

theorem sliceFrom_eq (h : i ≤ b.length) :
    (sliceFrom b i : Except (Fault ε) (List α)) = .ok (b.drop i) := if_pos h

theorem sliceTo_eq (h : j ≤ b.length) :
    (sliceTo b j : Except (Fault ε) (List α)) = .ok (b.take j) := if_pos h

theorem slice_eq (h : i ≤ j) (h' : j ≤ b.length) :
    (slice b i j : Except (Fault ε) (List α)) = .ok ((b.take j).drop i) := if_pos ⟨h, h'⟩

theorem word_eq {b : List UInt8} (h : i + 1 < b.length) :
    (word b i : Except (Fault ε) Nat) = .ok (b[i].toNat * 256 + b[i + 1].toNat) := by
  rw [word, get_eq (Nat.lt_of_succ_lt h), get_eq h]
  rfl

/-! ## Parts of a slice that was put together -/

theorem get_append (a : List α) : (get (a ++ b) (a.length + i) : Except (Fault ε) α) = get b i := by
  rw [get, get, List.getElem?_append_right (Nat.le_add_right _ _), Nat.add_sub_cancel_left]

theorem word_append (a : List UInt8) {b : List UInt8} :
    (word (a ++ b) (a.length + i) : Except (Fault ε) Nat) = word b i := by
  rw [word, get_append, Nat.add_assoc, get_append]
  rfl

theorem sliceFrom_append (a : List α) :
    (sliceFrom (a ++ b) a.length : Except (Fault ε) (List α)) = .ok b := by
  rw [sliceFrom_eq (by simp), List.drop_left]

theorem sliceTo_append (a : List α) :
    (sliceTo (a ++ b) a.length : Except (Fault ε) (List α)) = .ok a := by
  rw [sliceTo_eq (by simp), List.take_left]

theorem slice_append (a m : List α) :
    (slice (a ++ (m ++ b)) a.length (a.length + m.length) : Except (Fault ε) (List α)) = .ok m := by
  rw [slice_eq (by omega) (by simp), ← List.append_assoc, ← List.length_append,
    List.take_left, List.drop_left]

/-- A number in two bytes is read back. -/
theorem word_bytes {n : Nat} (h : n < 65536) (b : List UInt8) :
    (word (BigEndian.bytes 2 n ++ b) 0 : Except (Fault ε) Nat) = .ok n := by
  have hhi : (UInt8.ofNat (n / 256)).toNat = n / 256 := by
    rw [UInt8.toNat_ofNat']
    omega
  have hlo : (UInt8.ofNat n).toNat = n % 256 := by simp
  have hword : (word (BigEndian.bytes 2 n ++ b) 0 : Except (Fault ε) Nat) =
    .ok ((UInt8.ofNat (n / 256)).toNat * 256 + (UInt8.ofNat n).toNat) := rfl
  rw [hword, hhi, hlo, Nat.mul_comm, Nat.div_add_mod]

/-! ## No access out of range -/

/-- The result is not an access out of range. -/
def InRange (x : Except (Fault ε) α) : Prop := x ≠ .error .outOfRange

theorem InRange.ok (a : α) : InRange (.ok a : Except (Fault ε) α) := by
  rintro ⟨⟩

theorem InRange.bad (e : ε) : InRange (.error (.bad e) : Except (Fault ε) α) := by
  rintro ⟨⟩

theorem InRange.bind {x : Except (Fault ε) α} {f : α → Except (Fault ε) β} (hx : InRange x)
    (hf : ∀ a, x = .ok a → InRange (f a)) : InRange (x >>= f) := by
  cases x with
  | ok a => exact hf a rfl
  | error e => exact fun h => hx (by rw [Except.error.inj h])

end Checked
