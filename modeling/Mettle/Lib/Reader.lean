import Mettle.Lib.Bytes

/-!
# Reading a buffer that may be left

A reader of bytes that fails in one of two ways: it rejects the input with an error of its own, or it reads
outside the buffer. The rules here say when a composed reader succeeds and when it stays in the buffer.
-/

open List
open BitVec hiding not_not

namespace Mettle.Bytes

abbrev Buffer := List (BitVec 8)

variable {ε α β : Type}

/-- The two ways in which a reader ends without a value. -/
inductive Failure (ε : Type)
  | outOfBounds
  | rejected (e : ε)
  deriving DecidableEq

/-- The reader does not read outside the buffer. -/
def Stays (x : Except (Failure ε) α) : Prop := x ≠ .error .outOfBounds

/-- Goes on when the condition holds and rejects the input otherwise. -/
def require (p : Prop) [Decidable p] (e : ε) : Except (Failure ε) Unit :=
  if p then .ok () else .error (.rejected e)

/-- The value, or a rejection where there is none. -/
def orReject (x : Option α) (e : ε) : Except (Failure ε) α :=
  match x with
  | some a => .ok a
  | none => .error (.rejected e)

/-- The `n` bytes from `i`, where the buffer has them. -/
def bytesAt (data : Buffer) (i n : ℕ) : Except (Failure ε) Buffer :=
  if i + n ≤ data.length then .ok (readAt data i n) else .error .outOfBounds

/-- The word of `n` bytes at `i`, where the buffer has it. -/
def readWord (n : ℕ) (data : Buffer) (i : ℕ) : Except (Failure ε) (BitVec (8 * n)) := do
  let bytes ← bytesAt data i n
  pure (BitVec.ofNat (8 * n) (leValue bytes))

/-- The `n` bytes at `i` are those of a word, the least significant first. -/
def WordAt (data : Buffer) (i n : ℕ) (v : BitVec (8 * n)) : Prop := readAt data i n = leBytes n v.toNat

/-! ## When a reader succeeds -/

section

variable {x : Except (Failure ε) α} {f : α → Except (Failure ε) β} {b : β}

/-- A sequence succeeds with what its second part makes of the first part's result. -/
theorem bind_eq_ok : x >>= f = .ok b ↔ ∃ a, x = .ok a ∧ f a = .ok b := by
  cases x with
  | error e => simp [bind, Except.bind]
  | ok a => simp [bind, Except.bind]

theorem pure_eq_ok {a a' : α} : (pure a : Except (Failure ε) α) = .ok a' ↔ a = a' := by
  simp [pure, Except.pure]

/-- A check passes when what it asks for holds. -/
theorem require_eq_ok {p : Prop} [Decidable p] {e : ε} {u : Unit} : require p e = .ok u ↔ p := by
  rw [require]
  split <;> simp_all

/-- A value that may be missing passes when it is there. -/
theorem orReject_eq_ok {y : Option α} {e : ε} {a : α} : orReject y e = .ok a ↔ y = some a := by
  cases y <;> simp [orReject]

/-- A loop over a list succeeds when each of its rounds does. -/
theorem mapM_eq_ok {l : List α} {r : List β} :
    l.mapM f = .ok r ↔ Forall₂ (fun a b => f a = .ok b) l r := by
  induction l generalizing r with
  | nil =>
    rw [mapM_nil, pure_eq_ok]
    constructor
    · rintro rfl
      exact .nil
    · intro h
      cases h
      rfl
  | cons a l ih =>
    simp only [mapM_cons, bind_eq_ok, pure_eq_ok, ih]
    constructor
    · rintro ⟨b, hb, r, hr, rfl⟩
      exact .cons hb hr
    · intro h
      cases h with
      | cons hb hr => exact ⟨_, hb, _, hr, rfl⟩

/-- A map over the first numbers succeeds with the list that holds at each number what is read there. -/
theorem mapM_range_eq_ok {g : ℕ → Except (Failure ε) β} {n : ℕ} {r : List β} :
    (range n).mapM g = .ok r ↔ r.length = n ∧ ∀ (k : ℕ) (b : β), r[k]? = some b → g k = .ok b := by
  rw [mapM_eq_ok, forall₂_iff_get]
  constructor
  · rintro ⟨hlength, hget⟩
    rw [length_range] at hlength
    apply And.intro hlength.symm
    intro k b hb
    obtain ⟨hk, rfl⟩ := List.getElem?_eq_some_iff.mp hb
    have hkth := hget k (by rw [length_range]; omega) hk
    simpa using hkth
  · rintro ⟨rfl, hread⟩
    apply And.intro length_range
    intro k hk hk'
    have hkth := hread k _ (List.getElem?_eq_getElem hk')
    simpa using hkth

end

section

variable {data : Buffer} {i n : ℕ}

/-- A read is full exactly when it ends inside the data. -/
theorem readAt_length_eq_iff (hn : 0 < n) : (readAt data i n).length = n ↔ i + n ≤ data.length := by
  rw [readAt, length_take, length_drop]
  omega

theorem readAt_length (h : i + n ≤ data.length) : (readAt data i n).length = n := by
  rw [readAt, length_take, length_drop]
  omega

/-- A stretch of a stretch. -/
theorem readAt_readAt {k m : ℕ} (h : k + m ≤ n) : readAt (readAt data i n) k m = readAt data (i + k) m := by
  rw [readAt, readAt, readAt, drop_take, take_take, drop_drop, min_eq_left (by omega)]

/-- A long read is two reads one after the other. -/
theorem readAt_add (m : ℕ) : readAt data i (m + n) = readAt data i m ++ readAt data (i + m) n := by
  rw [readAt, readAt, readAt, take_add, drop_drop]

/-- The bytes of the value of some bytes are these bytes. -/
theorem leBytes_leValue (bytes : Buffer) : leBytes bytes.length (leValue bytes) = bytes := by
  induction bytes with
  | nil => rfl
  | cons b bytes ih =>
    rw [length_cons, leBytes, leValue]
    congr 1
    · apply eq_of_toNat_eq
      rw [toNat_ofNat]
      omega
    · rw [show (b.toNat + 256 * leValue bytes) / 256 = leValue bytes by omega, ih]

theorem leValue_lt (bytes : Buffer) : leValue bytes < 256 ^ bytes.length := by
  induction bytes with
  | nil => exact Nat.one_pos
  | cons b bytes ih =>
    rw [leValue, length_cons, pow_succ]
    omega

/-- A word that is read lies inside the data. -/
theorem WordAt.within {v : BitVec (8 * n)} (h : WordAt data i n v) (hn : 0 < n) : i + n ≤ data.length := by
  rw [← readAt_length_eq_iff hn, h, leBytes_length]

/-- At most one word is at a place. -/
theorem WordAt.unique {v v' : BitVec (8 * n)} (h : WordAt data i n v) (h' : WordAt data i n v') : v = v' := by
  have heq : leValue (leBytes n v.toNat) = leValue (leBytes n v'.toNat) := by rw [← h, ← h']
  have hpow : 256 ^ n = 2 ^ (8 * n) := (pow_mul 2 8 n).symm
  rw [leValue_leBytes, leValue_leBytes, hpow, Nat.mod_eq_of_lt v.isLt, Nat.mod_eq_of_lt v'.isLt] at heq
  exact eq_of_toNat_eq heq

/-- Reading bytes succeeds exactly inside the data, with the bytes that are there. -/
theorem bytesAt_eq_ok {bytes : Buffer} :
    (bytesAt data i n : Except (Failure ε) _) = .ok bytes ↔ i + n ≤ data.length ∧ readAt data i n = bytes := by
  rw [bytesAt]
  split <;> simp_all

/-- Inside the data there is a word to read. -/
theorem wordAt_ofNat (h : i + n ≤ data.length) :
    WordAt data i n (BitVec.ofNat (8 * n) (leValue (readAt data i n))) := by
  have hlength : (readAt data i n).length = n := readAt_length h
  have hlt := leValue_lt (readAt data i n)
  rw [hlength, show (256 : ℕ) = 2 ^ 8 from rfl, ← pow_mul] at hlt
  have hbytes := leBytes_leValue (readAt data i n)
  rw [hlength] at hbytes
  rw [WordAt, toNat_ofNat, Nat.mod_eq_of_lt hlt, hbytes]

/-- Reading a word gives the word that is there. -/
theorem readWord_eq_ok {v : BitVec (8 * n)} (hn : 0 < n) :
    (readWord n data i : Except (Failure ε) _) = .ok v ↔ WordAt data i n v := by
  rw [readWord, bind_eq_ok]
  constructor
  · rintro ⟨bytes, hbytes, hv⟩
    obtain ⟨hwithin, rfl⟩ := bytesAt_eq_ok.mp hbytes
    rw [← pure_eq_ok.mp hv]
    exact wordAt_ofNat hwithin
  · intro h
    have hwithin := h.within hn
    exact ⟨_, bytesAt_eq_ok.mpr ⟨hwithin, rfl⟩, pure_eq_ok.mpr ((wordAt_ofNat hwithin).unique h)⟩

end

/-! ## When a reader stays in the buffer -/

section

variable {x : Except (Failure ε) α} {f : α → Except (Failure ε) β} {data : Buffer} {i n : ℕ}

theorem stays_ok {a : α} : Stays (.ok a : Except (Failure ε) α) := by simp [Stays]

theorem stays_pure {a : α} : Stays (pure a : Except (Failure ε) α) := stays_ok

theorem stays_require {p : Prop} [Decidable p] {e : ε} : Stays (require p e) := by
  rw [require, Stays]
  split <;> simp

theorem stays_orReject {y : Option α} {e : ε} : Stays (orReject y e) := by
  cases y <;> simp [orReject, Stays]

/-- A sequence stays inside when its first part does and, after it, the second. -/
theorem stays_bind (hx : Stays x) (hf : ∀ a, x = .ok a → Stays (f a)) : Stays (x >>= f) := by
  cases x with
  | error e =>
    intro h
    apply hx
    rw [Except.error.inj h]
  | ok a => exact hf a rfl

/-- A first part that reads outside makes the sequence do so. -/
theorem not_stays_bind_left (hx : ¬ Stays x) : ¬ Stays (x >>= f) := by
  rw [Stays, not_not] at hx ⊢
  rw [hx]
  rfl

/-- Behind a first part that succeeds only the second one matters. -/
theorem stays_bind_iff_of_ok {a : α} (hx : x = .ok a) : Stays (x >>= f) ↔ Stays (f a) := by
  rw [hx]
  rfl

/-- A loop stays inside when each of its rounds does. -/
theorem stays_mapM {l : List α} (hf : ∀ a ∈ l, Stays (f a)) : Stays (l.mapM f) := by
  induction l with
  | nil => exact stays_pure
  | cons a l ih =>
    rw [mapM_cons]
    apply stays_bind (hf a (.head _))
    intro b _
    apply stays_bind (ih fun a' ha' => hf a' (.tail _ ha'))
    intro r _
    exact stays_pure

/-- A read of bytes inside the data stays inside. -/
theorem stays_bytesAt (h : i + n ≤ data.length) : Stays (bytesAt data i n : Except (Failure ε) _) := by
  rw [bytesAt, if_pos h]
  exact stays_ok

/-- A read of bytes stays inside exactly when the bytes are. -/
theorem stays_bytesAt_iff : Stays (bytesAt data i n : Except (Failure ε) _) ↔ i + n ≤ data.length := by
  apply Iff.intro _ stays_bytesAt
  intro h
  by_contra hlong
  rw [bytesAt, if_neg hlong] at h
  exact h rfl

/-- What follows a check has to stay inside only where the check passes. -/
theorem stays_require_bind {p : Prop} [Decidable p] {e : ε} {g : Unit → Except (Failure ε) β}
    (hg : p → Stays (g ())) : Stays (require p e >>= g) := by
  apply stays_bind stays_require
  intro _ hp
  exact hg (require_eq_ok.mp hp)

/-- A read of a word inside the data stays inside. -/
theorem stays_readWord (h : i + n ≤ data.length) : Stays (readWord n data i : Except (Failure ε) _) :=
  stays_bind (stays_bytesAt h) fun _ _ => stays_pure

/-- What follows a word that is read has to stay inside for that word. -/
theorem stays_readWord_bind {g : BitVec (8 * n) → Except (Failure ε) β} (h : i + n ≤ data.length)
    (hn : 0 < n) (hg : ∀ v, WordAt data i n v → Stays (g v)) : Stays (readWord n data i >>= g) := by
  apply stays_bind (stays_readWord h)
  intro v hv
  exact hg v ((readWord_eq_ok hn).mp hv)

end

end Mettle.Bytes
