import AdlServer.Memory
import AdlServer.Program
import Mathlib.Data.List.TakeWhile
import Mathlib.Data.Nat.Digits.Defs

/-! What the C++ runtime contributes: the ways a run can break off, strings built
from pointers, and the decimal conversions `std::to_string` and `std::stoi`. -/
namespace AdlServer.Cpp
open Program Memory

/-- The `assert`s of the source that a run can reach. -/
inductive Assertion where
  | retrieve | retrieveAsString | connectEstablished | handleClose | sendInLoop
  deriving DecidableEq, Repr

/-- How a call can end without returning. -/
inductive Fault where
  | lengthError
  | invalidArgument
  | outOfRange
  | assertion (site : Assertion)
  | overrun
  deriving DecidableEq, Repr

def check (site : Assertion) (c : Prop) [Decidable c] : Prog Fault Unit :=
  if c then pure () else Prog.throw (.assertion site)

theorem check_pos (site : Assertion) {c : Prop} [Decidable c] (h : c) :
    check site c = pure () := by
  simp [check,h]

theorem ensures_check (site : Assertion) {c : Prop} [Decidable c] {E : Fault → Prop}
    (h : ¬ c → E (.assertion site)) : Prog.Ensures (check site c) (fun _ => c) E := by
  rw [check]
  by_cases hc : c
  · rw [if_pos hc]
    exact Prog.ensures_pure hc
  · rw [if_neg hc]
    exact Prog.ensures_throw (h hc)

def inside (c : Prop) [Decidable c] : Prog Fault Unit :=
  if c then pure () else Prog.throw .overrun

theorem inside_pos {c : Prop} [Decidable c] (h : c) : inside c = pure () := by
  simp [inside,h]

inductive Errno where
  | EINTR | EAGAIN | EPIPE | ECONNRESET | EBADF
  | other (n : Nat)
  deriving DecidableEq, Repr

/-- `string(first, last)`: a negative distance is a huge length, which throws. -/
def rangeString (m : Mem) (first last : Int) : Prog Fault Bytes :=
  if last < first then Prog.throw .lengthError else pure (slice m first last)

theorem rangeString_eq (m : Mem) {first last : Int} (h : first ≤ last) :
    rangeString m first last = pure (slice m first last) := by
  simp [rangeString,Int.not_lt.mpr h]

theorem rangeString_throws (m : Mem) {first last : Int} (h : last < first) :
    rangeString m first last = Prog.throw .lengthError := by
  simp [rangeString,h]

/-- `strncmp(p, s, n) == 0` for a literal `s`, which ends in a NUL. -/
def strncmpEq (m : Mem) (p : Int) : Bytes → Nat → Bool
  | _, 0 => true
  | [], _+1 => m p == 0
  | c::cs, n+1 => m p == c && (c == 0 || strncmpEq m (p+1) cs n)

theorem strncmpEq_iff (m : Mem) (p : Int) (s : Bytes) (h : (0:UInt8)∉s) :
    strncmpEq m p s s.length = true ↔ slice m p (p+s.length) = s := by
  induction s generalizing p with
  | nil => simp [strncmpEq]
  | cons c cs ih =>
    have hc : c ≠ 0 := fun e => h (by simp [e])
    have hcs : (0:UInt8)∉cs := fun e => h (List.mem_cons_of_mem c e)
    have hlt : p < p+((c::cs).length:Int) := by simp only [List.length_cons]; omega
    have he : p+((c::cs).length:Int) = p+1+(cs.length:Int) := by
      simp only [List.length_cons]
      omega
    rw [slice_cons m hlt,he]
    simp [strncmpEq,hc,ih (p+1) hcs]

def isSpace (c : UInt8) : Bool := c == 32 || (9 ≤ c && c ≤ 13)

def isDigit (c : UInt8) : Bool := 48 ≤ c && c ≤ 57

def digitsValue (ds : Bytes) : Nat := ds.foldl (fun a c => 10*a+(c.toNat-48)) 0

def takeSign : Bytes → Bool × Bytes
  | 45::s => (true,s)
  | 43::s => (false,s)
  | s => (false,s)

/-- `std::stoi`: leading white space, a sign, digits; what follows is ignored. -/
def stoi (s : Bytes) : Prog Fault Int :=
  let (neg,t) := takeSign (s.dropWhile isSpace)
  let ds := t.takeWhile isDigit
  if ds = [] then Prog.throw .invalidArgument
  else
    let v : Int := if neg then -(digitsValue ds : Int) else digitsValue ds
    if v < -2^31 ∨ 2^31 ≤ v then Prog.throw .outOfRange else pure v

def digitByte (d : Nat) : UInt8 := UInt8.ofNat (48+d)

def toString (n : Nat) : Bytes :=
  if n = 0 then [48] else ((Nat.digits 10 n).map digitByte).reverse

theorem digitByte_spec {d : Nat} (h : d < 10) :
    isDigit (digitByte d) = true ∧ (digitByte d).toNat-48 = d := by
  have hd : (digitByte d).toNat = 48+d := by
    simp only [digitByte,UInt8.toNat_ofNat']
    omega
  refine ⟨?_,by omega⟩
  simp only [isDigit,Bool.and_eq_true,decide_eq_true_eq,UInt8.le_iff_toNat_le,hd]
  constructor
  · change 48 ≤ 48+d
    omega
  · change 48+d ≤ 57
    omega

theorem digitsValue_reverse (ds : List Nat) (h : ∀ d∈ds, d < 10) :
    digitsValue (ds.map digitByte).reverse = Nat.ofDigits 10 ds := by
  induction ds with
  | nil => rfl
  | cons d ds ih =>
    have hd := (digitByte_spec (h d (by simp))).2
    have hi := ih fun c hc => h c (List.mem_cons_of_mem d hc)
    rw [digitsValue] at hi ⊢
    rw [List.map_cons,List.reverse_cons,List.foldl_append,hi]
    simp [hd,Nat.ofDigits_cons]
    omega

theorem toString_digits (n : Nat) : ∀ c∈toString n, isDigit c = true := by
  intro c hc
  rw [toString] at hc
  split_ifs at hc with h
  · rw [List.mem_singleton.mp hc]
    decide
  · obtain ⟨d,hd,rfl⟩ := List.mem_map.mp (List.mem_reverse.mp hc)
    exact (digitByte_spec (Nat.digits_lt_base (by omega) hd)).1

theorem toString_ne_nil (n : Nat) : toString n ≠ [] := by
  rw [toString]
  split_ifs with h
  · simp
  · simpa using Nat.digits_ne_nil_iff_ne_zero.mpr h

theorem digitsValue_toString (n : Nat) : digitsValue (toString n) = n := by
  rw [toString]
  split_ifs with h
  · subst h
    rfl
  · rw [digitsValue_reverse _ fun d hd => Nat.digits_lt_base (by omega) hd,
      Nat.ofDigits_digits]

theorem takeSign_digit {c : UInt8} {s : Bytes} (h : isDigit c = true) :
    takeSign (c::s) = (false,c::s) := by
  have hc : c ≠ 45 ∧ c ≠ 43 := by
    constructor <;> (rintro rfl; exact absurd h (by decide))
  unfold takeSign
  split
  · next heq => exact absurd (List.cons.inj heq).1 hc.1
  · next heq => exact absurd (List.cons.inj heq).1 hc.2
  · rfl

theorem isSpace_of_isDigit {c : UInt8} (h : isDigit c = true) : isSpace c = false := by
  simp only [isDigit,isSpace,Bool.and_eq_true,decide_eq_true_eq,UInt8.le_iff_toNat_le,
    Bool.or_eq_false_iff,beq_eq_false_iff_ne] at h ⊢
  refine ⟨?_,?_⟩
  · rintro rfl
    exact absurd h (by decide)
  · by_contra hc
    simp only [Bool.not_eq_false,Bool.and_eq_true,decide_eq_true_eq] at hc
    have h1 : 48 ≤ c.toNat := h.1
    have h2 : c.toNat ≤ 13 := hc.2
    omega

theorem stoi_toString {n : Nat} (h : n < 2^31) : (stoi (toString n)).Returns n := by
  have hds := toString_digits n
  obtain ⟨c,s,hcs⟩ := List.exists_cons_of_ne_nil (toString_ne_nil n)
  have hc : isDigit c = true := hds c (by simp [hcs])
  have hdrop : (toString n).dropWhile isSpace = toString n := by
    rw [hcs,List.dropWhile_cons_of_neg]
    simp [isSpace_of_isDigit hc]
  have htake : (toString n).takeWhile isDigit = toString n :=
    List.takeWhile_eq_self_iff.mpr hds
  have hsign : takeSign (toString n) = (false,toString n) := by
    rw [hcs,takeSign_digit hc]
  have hr : ¬ ((n:Int) < -2^31 ∨ 2^31 ≤ (n:Int)) := by omega
  simp only [stoi,hdrop,hsign,htake,toString_ne_nil n,digitsValue_toString,if_false,
    Bool.false_eq_true,hr,Prog.returns_pure]

theorem stoi_range {s : Bytes} {v : Int} (h : (stoi s).Returns v) : -2^31 ≤ v ∧ v < 2^31 := by
  rw [stoi] at h
  simp only at h
  split_ifs at h <;> simp at h <;> omega

def NoInt (s : Bytes) : Prop :=
  let (neg,t) := takeSign (s.dropWhile isSpace)
  let ds := t.takeWhile isDigit
  ds = [] ∨ 2^31+(if neg then 1 else 0) ≤ digitsValue ds

theorem throws_ite {c : Prop} [Decidable c] (e : Fault) (v : Int) :
    (∃ e', (if c then Prog.throw e else pure v : Prog Fault Int).Ends (.error e')) ↔ c := by
  by_cases hc : c
  · simp [hc]
  · simp [hc]

/-- `std::stoi` throws on exactly these texts. -/
theorem stoi_throws_iff (s : Bytes) : (∃ e, (stoi s).Ends (.error e)) ↔ NoInt s := by
  dsimp only [stoi,NoInt]
  generalize (takeSign (s.dropWhile isSpace)).1 = neg
  generalize (takeSign (s.dropWhile isSpace)).2.takeWhile isDigit = ds
  by_cases hnil : ds = []
  · simp [hnil]
  · rw [if_neg hnil,throws_ite,or_iff_right hnil]
    cases neg with
    | false =>
      rw [if_neg Bool.false_ne_true,if_neg Bool.false_ne_true]
      omega
    | true =>
      rw [if_pos rfl,if_pos rfl]
      omega

end AdlServer.Cpp
