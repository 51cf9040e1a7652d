import Mathlib.Data.List.Basic
import Mathlib.Tactic.Ring
import Mathlib.Tactic.Linarith

namespace Basis

/-!
# Flat memory — slices, overlays, blocks of one size, and little-endian integers

The vocabulary for a memory that is one list of cells but is stored in blocks:

* `slice m p n` — the `n` cells from `p` on, `overlay m p bs` — `m` with the cells from `p`
  on replaced by `bs`;
* `slice_append`, `overlay_overlay` — two adjacent accesses are one access, which is what
  the loop over the blocks relies on;
* `slice_flatten`, `overlay_flatten` — an access inside block `i` of a list of blocks of
  size `n` is the access at `i * n + o` of the concatenation;
* `toLE`, `ofLE` — the little-endian bytes of a number and back;
* `testBit_ofLE`, `testBit_toLE` — where the bits of a number are in its bytes.
-/

variable {β : Type*}

/-- The cells of `m` at `[p, p + n)`. -/
def slice (m : List β) (p n : ℕ) : List β := (m.drop p).take n

/-- `m` with the cells from `p` on replaced by those of `bs`. -/
def overlay (m : List β) (p : ℕ) (bs : List β) : List β :=
  m.take p ++ (bs ++ m.drop (p + bs.length))

/-! ### Slices -/

/-- A slice of no bytes is empty. -/
@[simp] theorem slice_zero (m : List β) (p : ℕ) : slice m p 0 = [] := by simp [slice]

/-- A slice inside the memory has the length asked for. -/
theorem length_slice {m : List β} {p n : ℕ} (h : p + n ≤ m.length) : (slice m p n).length = n := by
  simp only [slice, List.length_take, List.length_drop]
  omega

/-- Two adjacent slices are one slice. -/
theorem slice_append (m : List β) (p a b : ℕ) :
    slice m p a ++ slice m (p + a) b = slice m p (a + b) := by
  simp only [slice]
  rw [List.take_add, List.drop_drop]

/-- A slice that lies in the middle part of a memory is a slice of that part. -/
theorem slice_middle (a b c : List β) {o n : ℕ} (h : o + n ≤ b.length) :
    slice (a ++ (b ++ c)) (a.length + o) n = slice b o n := by
  simp only [slice]
  rw [List.drop_append, List.drop_eq_nil_of_le (by omega), List.nil_append,
    Nat.add_sub_cancel_left, List.drop_append, List.take_append_of_le_length]
  rw [List.length_drop]
  omega

/-! ### Overlays -/

/-- Storing nothing changes nothing. -/
@[simp] theorem overlay_nil (m : List β) (p : ℕ) : overlay m p [] = m := by
  simp [overlay]

/-- Storing inside the memory keeps its length. -/
theorem length_overlay {m bs : List β} {p : ℕ} (h : p + bs.length ≤ m.length) :
    (overlay m p bs).length = m.length := by
  simp only [overlay, List.length_append, List.length_take, List.length_drop]
  omega

/-- The overlaid range holds the new cells. -/
theorem slice_overlay {m bs : List β} {p : ℕ} (h : p ≤ m.length) :
    slice (overlay m p bs) p bs.length = bs := by
  have hp : (m.take p).length = p := by rw [List.length_take]; omega
  have hmid := slice_middle (m.take p) bs (m.drop (p + bs.length)) (o := 0)
    (n := bs.length) (by omega)
  rw [hp, Nat.add_zero] at hmid
  rw [overlay, hmid, slice, List.drop_zero, List.take_length]

/-- Two adjacent overlays are one overlay. -/
theorem overlay_overlay (m : List β) (p : ℕ) (as bs : List β) (h : p ≤ m.length) :
    overlay (overlay m p as) (p + as.length) bs = overlay m p (as ++ bs) := by
  have hp : (m.take p).length = p := by rw [List.length_take]; omega
  have htake : (overlay m p as).take (p + as.length) = m.take p ++ as := by
    rw [overlay, ← List.append_assoc, List.take_left' (by simp [hp])]
  have hdrop : (overlay m p as).drop (p + as.length + bs.length)
      = m.drop (p + (as ++ bs).length) := by
    rw [overlay, ← List.append_assoc, List.drop_append, List.drop_eq_nil_of_le (by simp [hp]),
      List.nil_append, List.length_append, hp, List.drop_drop, List.length_append]
    congr 1
    omega
  rw [overlay, htake, hdrop, overlay, List.append_assoc, List.append_assoc]

/-- An overlay of the middle part of a memory is an overlay of that part. -/
theorem overlay_middle (a b c : List β) {bs : List β} {o : ℕ} (h : o + bs.length ≤ b.length) :
    overlay (a ++ (b ++ c)) (a.length + o) bs = a ++ (overlay b o bs ++ c) := by
  have htake : (a ++ (b ++ c)).take (a.length + o) = a ++ b.take o := by
    rw [List.take_length_add_append, List.take_append_of_le_length (by omega)]
  have hdrop : (a ++ (b ++ c)).drop (a.length + o + bs.length) = b.drop (o + bs.length) ++ c := by
    rw [Nat.add_assoc, List.drop_length_add_append, List.drop_append_of_le_length h]
  rw [overlay, htake, hdrop, overlay]
  simp only [List.append_assoc]

/-- Overlaying below the old end does not see what is appended there. -/
theorem overlay_append_left {m ext bs : List β} {p : ℕ} (h : p + bs.length ≤ m.length) :
    overlay (m ++ ext) p bs = overlay m p bs ++ ext := by
  have := overlay_middle [] m ext h
  simpa using this

/-- The first cells of an overlay that starts inside of them, as far as it reaches. -/
theorem slice_overlay_prefix {m ext bs : List β} {p d : ℕ} (hp : p ≤ d) (hd : d ≤ m.length) :
    slice (overlay (m ++ ext) p bs) 0 (max d (p + bs.length)) = overlay (slice m 0 d) p bs := by
  have htake : ((m ++ ext).take p).length = p := by
    rw [List.length_take, List.length_append]
    omega
  have hrest : max d (p + bs.length) = p + (bs.length + (d - (p + bs.length))) := by omega
  simp only [slice, List.drop_zero, overlay]
  rw [hrest]
  nth_rewrite 1 [← htake]
  rw [List.take_length_add_append, List.take_length_add_append, List.take_take,
    Nat.min_eq_left hp, List.take_append_of_le_length (hp.trans hd), List.drop_take]
  congr 2
  -- the bytes written end inside the slice, or at its end
  rcases Nat.lt_or_ge (p + bs.length) d with hlt | hge
  · rw [List.drop_append_of_le_length (by omega), List.take_append_of_le_length]
    rw [List.length_drop]
    omega
  · rw [Nat.sub_eq_zero_of_le hge, List.take_zero, List.take_zero]

/-! ### Memories stored as blocks of one size -/

/-- The concatenation around block `i`. -/
theorem flatten_split {L : List (List β)} {i : ℕ} (hi : i < L.length) :
    L.flatten = (L.take i).flatten ++ (L[i] ++ (L.drop (i + 1)).flatten) := by
  conv_lhs => rw [← List.take_append_drop i L]
  rw [List.flatten_append, List.drop_eq_getElem_cons hi, List.flatten_cons]

/-- The length of blocks of one size. -/
theorem length_flatten_of_forall {L : List (List β)} {n : ℕ} (h : ∀ b ∈ L, b.length = n) :
    L.flatten.length = L.length * n := by
  induction L with
  | nil => simp
  | cons b L ih =>
    rw [List.flatten_cons, List.length_append, h b (by simp),
      ih (fun c hc => h c (List.mem_cons_of_mem b hc)), List.length_cons]
    ring

/-- The blocks before block `i` fill `i * n` cells. -/
theorem length_flatten_take {L : List (List β)} {n i : ℕ} (h : ∀ b ∈ L, b.length = n)
    (hi : i ≤ L.length) : (L.take i).flatten.length = i * n := by
  rw [length_flatten_of_forall (fun b hb => h b (List.mem_of_mem_take hb)), List.length_take,
    Nat.min_eq_left hi]

/-- A slice inside block `i` is the slice of the concatenation at `i * n + o`. -/
theorem slice_flatten {L : List (List β)} {n i o k : ℕ} (h : ∀ b ∈ L, b.length = n)
    (hi : i < L.length) (hk : o + k ≤ n) : slice L.flatten (i * n + o) k = slice L[i] o k := by
  rw [flatten_split hi, ← length_flatten_take h hi.le]
  exact slice_middle _ _ _ (by rw [h _ (List.getElem_mem hi)]; exact hk)

/-- An overlay inside block `i` is the overlay of the concatenation at `i * n + o`. -/
theorem overlay_flatten {L : List (List β)} {n i o : ℕ} {bs : List β}
    (h : ∀ b ∈ L, b.length = n) (hi : i < L.length) (hk : o + bs.length ≤ n) :
    (L.set i (overlay L[i] o bs)).flatten = overlay L.flatten (i * n + o) bs := by
  have hlen : i * n = (L.take i).flatten.length := (length_flatten_take h hi.le).symm
  have hblock : o + bs.length ≤ L[i].length := by rw [h _ (List.getElem_mem hi)]; exact hk
  rw [hlen, flatten_split hi, overlay_middle _ _ _ hblock,
    List.set_eq_take_append_cons_drop, if_pos hi]
  simp

/-! ### Little-endian integers -/

/-- The `n` low bytes of `x`, least significant first. -/
def toLE : ℕ → ℕ → List UInt8
  | 0, _ => []
  | n + 1, x => UInt8.ofNat (x % 256) :: toLE n (x / 256)

/-- The number whose bytes, least significant first, are `bs`. -/
def ofLE : List UInt8 → ℕ
  | [] => 0
  | b :: bs => b.toNat + 256 * ofLE bs

/-- `toLE` gives the number of bytes asked for. -/
@[simp] theorem length_toLE (n x : ℕ) : (toLE n x).length = n := by
  induction n generalizing x with
  | zero => rfl
  | succ n ih => rw [toLE, List.length_cons, ih]

/-- Reading back what was stored, up to the width. -/
theorem ofLE_toLE (n x : ℕ) : ofLE (toLE n x) = x % 256 ^ n := by
  induction n generalizing x with
  | zero => simp [toLE, ofLE, Nat.mod_one]
  | succ n ih =>
    have hb : (UInt8.ofNat (x % 256)).toNat = x % 256 := by
      rw [UInt8.toNat_ofNat']
      omega
    rw [toLE, ofLE, ih, hb, pow_succ, Nat.mul_comm (256 ^ n), Nat.mod_mul]

/-- What `n` bytes hold is below `256 ^ n`. -/
theorem ofLE_lt (bs : List UInt8) : ofLE bs < 256 ^ bs.length := by
  induction bs with
  | nil => simp [ofLE]
  | cons b bs ih =>
    have hb := b.toNat_lt
    rw [ofLE, List.length_cons, pow_succ]
    omega

/-- Bytes are those of the number they hold. -/
theorem toLE_ofLE (bs : List UInt8) : toLE bs.length (ofLE bs) = bs := by
  induction bs with
  | nil => rfl
  | cons b bs ih =>
    have hb := b.toNat_lt
    have hmod : (b.toNat + 256 * ofLE bs) % 256 = b.toNat := by omega
    have hdiv : (b.toNat + 256 * ofLE bs) / 256 = ofLE bs := by omega
    rw [List.length_cons, ofLE, toLE, hmod, hdiv, ih, UInt8.ofNat_toNat]

/-- The bits of a number are the bits of its bytes. -/
theorem testBit_ofLE (bs : List UInt8) (i : ℕ) :
    (ofLE bs).testBit i = (bs.getD (i / 8) 0).toNat.testBit (i % 8) := by
  induction bs generalizing i with
  | nil => simp [ofLE]
  | cons b bs ih =>
    have hb : b.toNat < 2 ^ 8 := b.toNat_lt
    have hval : ofLE (b :: bs) = 2 ^ 8 * ofLE bs + b.toNat := by
      rw [ofLE]
      omega
    rw [hval, Nat.testBit_two_pow_mul_add _ hb]
    by_cases hi : i < 8
    · rw [if_pos hi, Nat.div_eq_of_lt hi, Nat.mod_eq_of_lt hi, List.getD_cons_zero]
    · have hdiv : i / 8 = (i - 8) / 8 + 1 := by omega
      rw [if_neg hi, ih, hdiv, List.getD_cons_succ]
      congr 1
      omega

/-- The bits of the bytes are those of the number, eight at a time. -/
theorem testBit_toLE {n j k : ℕ} (hj : j < n) (hk : k < 8) (x : ℕ) :
    ((toLE n x).getD j 0).toNat.testBit k = x.testBit (8 * j + k) := by
  induction n generalizing x j with
  -- bit `k` of the lowest byte
  | zero => omega
  | succ n ih =>
    cases j with
    | zero =>
      have hb : (UInt8.ofNat (x % 256)).toNat = x % 2 ^ 8 := by
        rw [UInt8.toNat_ofNat']
        omega
      rw [toLE, List.getD_cons_zero, hb, Nat.testBit_mod_two_pow, decide_eq_true hk, Bool.true_and]
      congr 1
      omega
    | succ j =>
      rw [toLE, List.getD_cons_succ, ih (by omega), show (256 : ℕ) = 2 ^ 8 by rfl,
        Nat.testBit_div_two_pow]
      congr 1
      omega

end Basis
