import Mathlib.Algebra.Group.Int.Defs
import Mathlib.Algebra.Group.Nat.Defs
import Mathlib.Data.List.Basic
import Mathlib.Tactic.Common

/-! Byte memory behind a pointer, the stretches of it that code reads as
strings, and 32-bit signed arithmetic. -/
namespace AdlServer.Memory

abbrev Bytes := List UInt8

/-- What lies around a `char *`, at every offset. -/
abbrev Mem := Int → UInt8

/-- The bytes of `[a, b)`; empty when `b ≤ a`. -/
def slice (m : Mem) (a b : Int) : Bytes :=
  (List.range (b-a).toNat).map fun i : Nat => m (a+i)

def shift (m : Mem) (k : Int) : Mem := fun i => m (k+i)

/-- A string at offset `0`, followed by whatever `after` holds. -/
def ofBytes (s : Bytes) (after : Mem) : Mem := fun i =>
  if 0 ≤ i then s.getD i.toNat (after i) else after i

@[simp] theorem length_slice (m : Mem) (a b : Int) : (slice m a b).length = (b-a).toNat := by
  simp [slice]

theorem slice_of_le (m : Mem) {a b : Int} (h : b ≤ a) : slice m a b = [] := by
  have : (b-a).toNat = 0 := by omega
  simp [slice,this]

@[simp] theorem slice_self (m : Mem) (a : Int) : slice m a a = [] := slice_of_le m (Int.le_refl a)

theorem slice_cons (m : Mem) {a b : Int} (h : a < b) :
    slice m a b = m a::slice m (a+1) b := by
  obtain ⟨n,hn⟩ : ∃ n : Nat, (b-a).toNat = n+1 := ⟨(b-a).toNat-1,by omega⟩
  have hn' : (b-(a+1)).toNat = n := by omega
  simp only [slice,hn,hn',List.range_succ_eq_map,List.map_cons,List.map_map]
  congr 1
  · simp
  · apply List.map_congr_left
    intro i _
    simp only [Function.comp_apply]
    congr 1
    omega

theorem slice_append (m : Mem) {a b c : Int} (hab : a ≤ b) (hbc : b ≤ c) :
    slice m a c = slice m a b++slice m b c := by
  obtain ⟨n,hn⟩ : ∃ n : Nat, b-a = n := ⟨(b-a).toNat,by omega⟩
  induction n generalizing a with
  | zero =>
    have : a = b := by omega
    subst a
    simp
  | succ n ih =>
    rw [slice_cons m (by omega : a < c),slice_cons m (by omega : a < b),
      ih (a := a+1) (by omega) (by omega)]
    rfl

theorem slice_congr {m m' : Mem} {a b : Int} (h : ∀ i, a ≤ i → i < b → m i = m' i) :
    slice m a b = slice m' a b := by
  apply List.map_congr_left
  intro i hi
  have := List.mem_range.mp hi
  exact h _ (by omega) (by omega)

theorem mem_slice (m : Mem) {a b i : Int} (ha : a ≤ i) (hb : i < b) : m i∈slice m a b := by
  rw [slice_append m ha (Int.le_of_lt hb),slice_cons m hb]
  simp

theorem slice_inj {m m' : Mem} {a b i : Int} (h : slice m a b = slice m' a b) (ha : a ≤ i)
    (hb : i < b) : m i = m' i := by
  rw [slice_append m ha (Int.le_of_lt hb),slice_append m' ha (Int.le_of_lt hb),
    slice_cons m hb,slice_cons m' hb] at h
  have hlen : (slice m a i).length = (slice m' a i).length := by
    rw [length_slice,length_slice]
  exact (List.cons.inj (List.append_inj h hlen).2).1

theorem slice_part {m m' : Mem} {a b c d : Int} (h : slice m a b = slice m' a b) (ha : a ≤ c)
    (hb : d ≤ b) : slice m c d = slice m' c d :=
  slice_congr fun i hi hi' => slice_inj h (by omega) (by omega)

theorem slice_shift (m : Mem) (k a b : Int) : slice (shift m k) a b = slice m (k+a) (k+b) := by
  have : k+b-(k+a) = b-a := by omega
  simp only [slice,shift,this,Int.add_assoc]

theorem shift_zero (m : Mem) : shift m 0 = m := by
  funext i
  rw [shift,Int.zero_add]

theorem shift_shift (m : Mem) (a b : Int) : shift (shift m a) b = shift m (a+b) := by
  funext i
  rw [shift,shift,shift,Int.add_assoc]

theorem slice_split {m : Mem} {a b : Int} {s t : Bytes} (h : slice m a b = s++t) :
    slice m a (a+s.length) = s ∧ slice m (a+s.length) b = t := by
  by_cases hab : a ≤ b
  · have hlen := congrArg List.length h
    simp only [length_slice,List.length_append] at hlen
    rw [slice_append m (by omega : a ≤ a+s.length) (by omega)] at h
    exact List.append_inj h (by rw [length_slice]; omega)
  · rw [slice_of_le m (by omega)] at h
    obtain ⟨rfl,rfl⟩ := List.append_eq_nil_iff.mp h.symm
    simp [slice_of_le m (by omega : b ≤ a)]

theorem slice_head {m : Mem} {a b : Int} {c : UInt8} {t : Bytes} (h : slice m a b = c::t) :
    a < b ∧ m a = c ∧ slice m (a+1) b = t := by
  have hlen := congrArg List.length h
  simp only [length_slice,List.length_cons] at hlen
  have hab : a < b := by omega
  rw [slice_cons m hab] at h
  exact ⟨hab,(List.cons.inj h).1,(List.cons.inj h).2⟩

theorem prefix_slice (m : Mem) {a b : Int} (hab : a ≤ b) (s : Bytes) :
    (s.length:Int) ≤ b-a ∧ slice m a (a+s.length) = s ↔ s<+:slice m a b := by
  constructor
  · intro ⟨hle,he⟩
    rw [slice_append m (by omega : a ≤ a+s.length) (by omega : a+s.length ≤ b),he]
    exact List.prefix_append _ _
  · intro ⟨t,ht⟩
    have hlen := congrArg List.length ht
    simp only [List.length_append,length_slice] at hlen
    exact ⟨by omega,(slice_split ht.symm).1⟩

theorem slice_end {m : Mem} {a b : Int} {s : Bytes} (hab : a ≤ b) (h : slice m a b = s) :
    b = a+s.length := by
  have := congrArg List.length h
  simp only [length_slice] at this
  omega

theorem slice_ofBytes (s : Bytes) (after : Mem) : slice (ofBytes s after) 0 s.length = s := by
  apply List.ext_getElem
  · simp
  · intro i _ h2
    simp [slice,ofBytes,h2]

theorem ofBytes_behind (s : Bytes) (after : Mem) {i : Int} (h : s.length ≤ i) :
    ofBytes s after i = after i := by
  have hlen : s.length ≤ i.toNat := by omega
  rw [ofBytes,if_pos (by omega),List.getD_eq_getElem?_getD,List.getElem?_eq_none hlen]
  rfl

def poke (m : Mem) (p : Int) (c : UInt8) : Mem := fun i => if i = p then c else m i

def store (m : Mem) (p : Int) (s : Bytes) : Mem := shift (ofBytes s (shift m p)) (-p)

def memmove (m : Mem) (dst src n : Int) : Mem := fun i =>
  if dst ≤ i ∧ i < dst+n then m (src+(i-dst)) else m i

theorem slice_poke (m : Mem) {a p : Int} (c : UInt8) (h : a ≤ p) :
    slice (poke m p c) a (p+1) = slice m a p++[c] := by
  rw [slice_append _ h (by omega : p ≤ p+1),slice_cons _ (by omega : p < p+1),slice_self]
  congr 1
  · apply slice_congr
    intro i _ hi
    simp [poke,Int.ne_of_lt hi]
  · simp [poke]

theorem store_before (m : Mem) {p i : Int} (s : Bytes) (h : i < p) : store m p s i = m i := by
  have hneg : ¬ 0 ≤ -p+i := by omega
  have hback : p+(-p+i) = i := by omega
  rw [store,shift,ofBytes,if_neg hneg,shift,hback]

theorem slice_store (m : Mem) {a p : Int} (s : Bytes) (h : a ≤ p) :
    slice (store m p s) a (p+s.length) = slice m a p++s := by
  rw [slice_append _ h (by omega : p ≤ p+s.length)]
  congr 1
  · exact slice_congr fun i _ hi => store_before m s hi
  · have hend : -p+(p+s.length) = s.length := by omega
    rw [store,slice_shift,Int.add_left_neg,hend]
    exact slice_ofBytes s _

theorem slice_memmove (m : Mem) (dst src n : Int) :
    slice (memmove m dst src n) dst (dst+n) = slice m src (src+n) := by
  have hd : dst+n-dst = src+n-src := by omega
  rw [slice]
  rw [hd]
  apply List.map_congr_left
  intro i hi
  have := List.mem_range.mp hi
  have hi' : src+(dst+(i:Int)-dst) = src+i := by omega
  simp only [memmove]
  rw [if_pos (by omega),hi']

theorem slice_take (m : Mem) {a b c : Int} (hab : a ≤ b) (hbc : b ≤ c) :
    (slice m a c).take (b-a).toNat = slice m a b := by
  rw [slice_append m hab hbc]
  exact List.take_left' (length_slice m a b)

theorem slice_drop (m : Mem) {a b c : Int} (hab : a ≤ b) (hbc : b ≤ c) :
    (slice m a c).drop (b-a).toNat = slice m b c := by
  rw [slice_append m hab hbc]
  exact List.drop_left' (length_slice m a b)

/-- Two's complement wrap-around of a 32-bit `int`. -/
def wrapInt (x : Int) : Int := Int.bmod x (2^32)

theorem wrapInt_of_range {x : Int} (h : -2^31 ≤ x) (h' : x < 2^31) : wrapInt x = x := by
  rw [wrapInt]
  rw [Int.bmod_def]
  split_ifs <;> omega

theorem wrapInt_lt (x : Int) : wrapInt x < 2^31 :=
  Int.bmod_lt (by decide)

theorem wrapInt_of_overflow {x : Int} (h : 2^31 ≤ x) (h' : x < 2^32) :
    wrapInt x = x-2^32 := by
  rw [wrapInt]
  rw [Int.bmod_def]
  split_ifs <;> omega

end AdlServer.Memory
