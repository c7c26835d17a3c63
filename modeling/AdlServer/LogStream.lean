import AdlServer.HttpServer
import Mathlib.Data.Nat.Digits.Lemmas

/-! `log/logStream`, a stream into the bytes of one `adlBuffer`. What is inserted fits as a
whole or is left out. -/
namespace AdlServer.Log
open Memory
open Net (sizeT sizeT_nat)
open Http (bytes intString)

/-- How an insertion can break off: an `assert`, or a store behind `buf_`. -/
inductive StreamFault where
  | assertion | overrun
  deriving DecidableEq, Repr

abbrev Checked : Type → Type := Except StreamFault

def assert (c : Prop) [Decidable c] : Checked Unit := if c then pure () else .error .assertion

/-- `adlBuffer<SIZE>` as it lies in memory: `buf_` takes the offsets below `SIZE`. -/
structure CharBuffer (SIZE : Nat) where
  len : Nat
  buf : Mem

namespace CharBuffer
variable {SIZE : Nat}

def setlen (b : CharBuffer SIZE) (len : Nat) : Checked (CharBuffer SIZE) := do
  assert (len < SIZE)
  pure ⟨len,poke b.buf len 0⟩

def addlen (b : CharBuffer SIZE) (len : Nat) : Checked (CharBuffer SIZE) :=
  b.setlen ((len+b.len)%2^64)

def avail (b : CharBuffer SIZE) : Checked Nat := do
  assert (b.len < SIZE)
  pure (SIZE-1-b.len)

def put (b : CharBuffer SIZE) (s : Bytes) : Checked (CharBuffer SIZE) :=
  if b.len+s.length ≤ SIZE then .ok { b with buf := store b.buf b.len s } else .error .overrun

def appendChar (b : CharBuffer SIZE) (c : UInt8) : Checked (CharBuffer SIZE) := do
  let room ← b.avail
  assert (1 ≤ room)
  let b ← b.put [c]
  b.addlen 1

def append (b : CharBuffer SIZE) (buf : Mem) (len : Nat) : Checked (CharBuffer SIZE) :=
  if len = 0 then pure b
  else do
    let room ← b.avail
    assert (len ≤ room)
    let b ← b.put (slice buf 0 len)
    b.addlen len

/-- The overload for a `std::string` does not ask whether there is anything to append. -/
def appendString (b : CharBuffer SIZE) (s : Bytes) (len : Nat) : Checked (CharBuffer SIZE) := do
  let room ← b.avail
  assert (len ≤ room)
  let b ← b.put (slice (ofBytes s fun _ => 0) 0 len)
  b.addlen len

/-- `snprintf(current(), size, ..)` cuts the text off, but returns its whole length. -/
def snprintf (b : CharBuffer SIZE) (size : Nat) (text : Bytes) :
    Checked (CharBuffer SIZE×Int) := do
  let b ← b.put (text.take (size-1)++[0])
  pure (b,text.length)

def ifRoom (b : CharBuffer SIZE) (len : Nat) (p : Checked (CharBuffer SIZE)) :
    Checked (CharBuffer SIZE) := do
  let room ← b.avail
  if len ≤ room then p else pure b

def contents (b : CharBuffer SIZE) : Bytes := slice b.buf 0 b.len

/-- Behind an insertion of `s` into `b`: it follows what was there, closed by a NUL. -/
structure Appended (b d : CharBuffer SIZE) (s : Bytes) : Prop where
  len : d.len < SIZE
  contents : d.contents = b.contents++s
  closed : s ≠ [] → d.buf d.len = 0

variable {b : CharBuffer SIZE}

theorem contents_length (b : CharBuffer SIZE) : b.contents.length = b.len := by
  rw [contents,length_slice]
  omega

theorem avail_eq (hb : b.len < SIZE) : b.avail = .ok (SIZE-1-b.len) := by
  simp [avail,assert,hb,bind,Except.bind,pure,Except.pure]

theorem avail_assert {n : Nat} (h : b.len+n < SIZE) (p : Checked (CharBuffer SIZE)) :
    (b.avail >>= fun room => assert (n ≤ room) >>= fun _ => p) = p := by
  have hroom : n ≤ SIZE-1-b.len := by omega
  rw [avail_eq (Nat.lt_of_le_of_lt (Nat.le_add_right _ _) h)]
  change assert (n ≤ SIZE-1-b.len) >>= (fun _ => p) = p
  rw [assert,if_pos hroom]
  rfl

theorem put_eq {s : Bytes} (h : b.len+s.length ≤ SIZE) :
    b.put s = .ok { b with buf := store b.buf b.len s } := if_pos h

theorem addlen_eq (hsize : SIZE ≤ 2^64) {n : Nat} (h : b.len+n < SIZE) :
    b.addlen n = .ok ⟨b.len+n,poke b.buf ((b.len+n:Nat):Int) 0⟩ := by
  have hsum : (n+b.len)%2^64 = b.len+n := by
    rw [Nat.mod_eq_of_lt (by omega)]
    exact Nat.add_comm _ _
  rw [addlen,hsum,setlen,assert,if_pos h]
  rfl

theorem put_addlen (hsize : SIZE ≤ 2^64) (s after : Bytes) (hlen : b.len+s.length < SIZE)
    (hafter : after.length ≤ 1) :
    ∃ d, (b.put (s++after) >>= fun d => d.addlen s.length) = .ok d ∧ Appended b d s := by
  have hput : b.len+(s++after).length ≤ SIZE := by
    rw [List.length_append]
    omega
  refine ⟨⟨b.len+s.length,poke (store b.buf b.len (s++after)) ((b.len+s.length:Nat):Int) 0⟩,
    ?_,hlen,?_,fun _ => by simp [poke]⟩
  · rw [put_eq hput]
    exact addlen_eq (b := { b with buf := store b.buf b.len (s++after) }) hsize hlen
  · -- the counted bytes end where the closing NUL is poked
    have hstored := slice_store b.buf (a := 0) (p := b.len) (s++after) (by omega)
    rw [← List.append_assoc] at hstored
    have hcut := (slice_split hstored).1
    have hend : (0:Int)+((slice b.buf 0 b.len++s).length:Int) = ((b.len+s.length:Nat):Int) := by
      rw [List.length_append,length_slice]
      omega
    rw [hend] at hcut
    calc
      slice (poke (store b.buf b.len (s++after)) ((b.len+s.length:Nat):Int) 0) 0
          ((b.len+s.length:Nat):Int)
          = slice (store b.buf b.len (s++after)) 0 ((b.len+s.length:Nat):Int) := by
            refine slice_congr fun i _ hi => ?_
            rw [poke,if_neg (Int.ne_of_lt hi)]
      _ = b.contents++s := hcut

theorem append_ok (hsize : SIZE ≤ 2^64) (buf : Mem) {len : Nat} (hlen : b.len+len < SIZE) :
    ∃ d, b.append buf len = .ok d ∧ Appended b d (slice buf 0 len) := by
  have hs : (slice buf 0 len).length = len := by
    rw [length_slice]
    omega
  by_cases h0 : len = 0
  · refine ⟨b,by simp [append,h0,pure,Except.pure],by omega,?_,?_⟩
    · simp [h0]
    · simp [h0]
  · have hput := put_addlen hsize (slice buf 0 len) [] (b := b)
      (by omega) (Nat.zero_le _)
    rw [List.append_nil,hs] at hput
    rw [append,if_neg h0,avail_assert hlen]
    exact hput

theorem appendString_ok (hsize : SIZE ≤ 2^64) {s : Bytes} (hlen : b.len+s.length < SIZE) :
    ∃ d, b.appendString s s.length = .ok d ∧ Appended b d s := by
  have hput := put_addlen hsize s [] hlen (Nat.zero_le _)
  rw [List.append_nil] at hput
  rw [appendString,avail_assert hlen,slice_ofBytes]
  exact hput

theorem appendChar_ok (hsize : SIZE ≤ 2^64) (c : UInt8) (hlen : b.len+1 < SIZE) :
    ∃ d, b.appendChar c = .ok d ∧ Appended b d [c] := by
  rw [appendChar,avail_assert hlen]
  exact put_addlen hsize [c] [] hlen (Nat.zero_le _)

theorem snprintf_ok (hsize : SIZE ≤ 2^64) {size : Nat} {text : Bytes} (htext : text.length < size)
    (hlen : b.len+size < SIZE) :
    ∃ d, (b.snprintf size text >>= fun r => r.1.addlen (sizeT r.2)) = .ok d ∧
      Appended b d text := by
  have hput := put_addlen hsize text [0] (b := b) (by omega) (Nat.le_refl _)
  have hwhole : text.take (size-1) = text := List.take_of_length_le (by omega)
  have hret : sizeT (text.length:Int) = text.length := sizeT_nat (by omega)
  obtain ⟨d,hd,happ⟩ := hput
  refine ⟨d,?_,happ⟩
  rw [← hd,snprintf,hwhole]
  cases b.put (text++[0]) with
  | error e => rfl
  | ok r => simp [bind,Except.bind,pure,Except.pure,hret]

/-- All of `s` if there is `fits`, and otherwise nothing. -/
structure Inserted (fits : Prop) (b d : CharBuffer SIZE) (s : Bytes) : Prop where
  len : d.len < SIZE
  all : fits → Appended b d s
  nothing : ¬ fits → d = b

theorem ifRoom_ok (hb : b.len < SIZE) {len : Nat} {p : Checked (CharBuffer SIZE)} {s : Bytes}
    (hp : b.len+len < SIZE → ∃ d, p = .ok d ∧ Appended b d s) :
    ∃ d, b.ifRoom len p = .ok d ∧ Inserted (len ≤ SIZE-1-b.len) b d s := by
  rw [ifRoom,avail_eq hb]
  dsimp only [bind,Except.bind]
  by_cases hroom : len ≤ SIZE-1-b.len
  · obtain ⟨d,hd,happ⟩ := hp (by omega)
    rw [if_pos hroom]
    exact ⟨d,hd,happ.len,fun _ => happ,fun h => absurd hroom h⟩
  · rw [if_neg hroom]
    exact ⟨b,rfl,hb,fun h => absurd h hroom,fun _ => rfl⟩

end CharBuffer

def kSmallBuffer : Nat := 4000

abbrev LogStream : Type := CharBuffer kSmallBuffer

/-- What a `const char *` that is not null points at. -/
structure CString where
  chars : Mem
  ended : ∃ n : Nat, chars n = 0

def strlen (v : CString) : Nat := Nat.find v.ended

/-- What `"%.12g"` makes of a `double`. -/
abbrev Digits : Type := { text : Bytes // text.length < 32 }

def hexByte (d : Nat) : UInt8 := UInt8.ofNat (if d < 10 then 48+d else 87+d)

def pointerText (p : UInt64) : Bytes :=
  if p = 0 then bytes "(nil)" else bytes "0x"++((Nat.digits 16 p.toNat).map hexByte).reverse

/-- What `operator<<` takes, one constructor for each overload. -/
inductive Item where
  | bufLen (buf : Mem) (len : Int32)
  | bool (v : Bool)
  | short (v : Int16)
  | unsignedShort (v : UInt16)
  | int (v : Int32)
  | unsignedInt (v : UInt32)
  | long (v : Int64)
  | unsignedLong (v : UInt64)
  | longLong (v : Int64)
  | unsignedLongLong (v : UInt64)
  | pointer (p : UInt64)
  | float (v : Digits)
  | double (v : Digits)
  | char (v : UInt8)
  | chars (v : Option CString)
  | unsignedChars (v : Option CString)
  | string (v : Bytes)
  | buffer (v : CharBuffer kSmallBuffer)
  | endl

namespace LogStream

def literal (s : Bytes) : Mem := ofBytes s fun _ => 0

def formatInteger (b : LogStream) (v : Int) : Checked LogStream :=
  let s := intString v
  b.ifRoom s.length (b.appendString s s.length)

def formatted (b : LogStream) (text : Bytes) : Checked LogStream :=
  b.ifRoom 32 do
    let (b,len) ← b.snprintf 32 text
    b.addlen (sizeT len)

def insertChars (b : LogStream) : Option CString → Checked LogStream
  | some v => b.ifRoom (strlen v) (b.append v.chars (strlen v))
  | none => b.ifRoom 6 (b.append (literal (bytes "(null)")) 6)

def endl (b : LogStream) : Checked LogStream := b.ifRoom 1 (b.appendChar 10)

def insert (b : LogStream) : Item → Checked LogStream
  | .bufLen buf len => b.ifRoom (sizeT len.toInt) (b.append buf (sizeT len.toInt))
  | .bool v => b.ifRoom 1 (b.append (literal (if v then [49] else [48])) 1)
  | .short v => b.formatInteger v.toInt32.toInt
  | .unsignedShort v => b.formatInteger v.toUInt32.toNat
  | .int v => b.formatInteger v.toInt
  | .unsignedInt v => b.formatInteger v.toNat
  | .long v => b.formatInteger v.toInt
  | .unsignedLong v => b.formatInteger v.toNat
  | .longLong v => b.formatInteger v.toInt
  | .unsignedLongLong v => b.formatInteger v.toNat
  | .pointer p => b.formatted (pointerText p)
  | .float v => b.formatted v.val
  | .double v => b.formatted v.val
  | .char v => b.ifRoom 1 (b.append (literal [v]) 1)
  | .chars v => b.insertChars v
  | .unsignedChars v => b.insertChars v
  | .string v => b.ifRoom v.length (b.appendString v v.length)
  | .buffer v => b.ifRoom v.len (b.append v.buf v.len)
  | .endl => b.endl

def insertAll (b : LogStream) (items : List Item) : Checked LogStream := items.foldlM insert b

end LogStream

namespace Item

def charsText : Option CString → Bytes
  | some v => slice v.chars 0 (strlen v)
  | none => bytes "(null)"

/-- What an item looks like in the log. -/
def rendering : Item → Bytes
  | bufLen buf len => slice buf 0 len.toInt
  | bool v => if v then [49] else [48]
  | short v => intString v.toInt
  | unsignedShort v => intString v.toNat
  | int v => intString v.toInt
  | unsignedInt v => intString v.toNat
  | long v => intString v.toInt
  | unsignedLong v => intString v.toNat
  | longLong v => intString v.toInt
  | unsignedLongLong v => intString v.toNat
  | pointer p => pointerText p
  | float v => v.val
  | double v => v.val
  | char v => [v]
  | chars v => charsText v
  | unsignedChars v => charsText v
  | string v => v
  | buffer v => v.contents
  | endl => [10]

/-- The room an item asks for: a pointer or a floating-point number asks for all that
`snprintf` may take. -/
def need : Item → Int
  | bufLen _ len => len.toInt
  | pointer _ => 32
  | float _ => 32
  | double _ => 32
  | item => item.rendering.length

/-- No room is enough for a negative length. -/
def Fits (room : Nat) (item : Item) : Prop := 0 ≤ item.need ∧ item.need ≤ room

instance (room : Nat) (item : Item) : Decidable (item.Fits room) :=
  inferInstanceAs (Decidable (0 ≤ item.need ∧ item.need ≤ room))

/-- The items that fit behind `used` bytes, each behind those that have fitted before it. -/
def fitting (used : Nat) : List Item → List Item
  | [] => []
  | item::items =>
    if item.Fits (kSmallBuffer-1-used) then item::fitting (used+item.rendering.length) items
    else fitting used items

theorem fitting_sublist (used : Nat) (items : List Item) :
    (fitting used items).Sublist items := by
  induction items generalizing used with
  | nil => exact .refl _
  | cons item items ih =>
    rw [fitting]
    by_cases hfit : item.Fits (kSmallBuffer-1-used)
    · rw [if_pos hfit]
      exact (ih _).cons_cons item
    · rw [if_neg hfit]
      exact (ih used).cons item

end Item

open CharBuffer

theorem CharBuffer.Inserted.congr {SIZE : Nat} {b d : CharBuffer SIZE} {fits fits' : Prop}
    {s s' : Bytes} (h : Inserted fits b d s) (hfits : fits' ↔ fits) (hs : fits → s = s') :
    Inserted fits' b d s' := by
  refine ⟨h.len,fun hf => ?_,fun hf => h.nothing (hfits.not.mp hf)⟩
  rw [← hs (hfits.mp hf)]
  exact h.all (hfits.mp hf)

theorem pointerText_length (p : UInt64) : (pointerText p).length < 32 := by
  rw [pointerText]
  by_cases h0 : p = 0
  · rw [if_pos h0]
    decide
  · have hdigits : (Nat.digits 16 p.toNat).length ≤ 16 :=
      (Nat.digits_length_le_iff (by decide) _).mpr p.toNat_lt
    have hx : (bytes "0x").length = 2 := by decide
    rw [if_neg h0,List.length_append,List.length_reverse,List.length_map]
    omega

namespace LogStream
variable {b : LogStream}

theorem small : kSmallBuffer ≤ 2^64 := by decide

theorem memory_ok (hb : b.len < kSmallBuffer) (buf : Mem) (len : Nat) :
    ∃ d, b.ifRoom len (b.append buf len) = .ok d ∧
      Inserted (len ≤ kSmallBuffer-1-b.len) b d (slice buf 0 len) :=
  ifRoom_ok hb fun hlen => append_ok small buf hlen

theorem literal_ok (hb : b.len < kSmallBuffer) (s : Bytes) :
    ∃ d, b.ifRoom s.length (b.append (literal s) s.length) = .ok d ∧
      Inserted (s.length ≤ kSmallBuffer-1-b.len) b d s := by
  have hall := memory_ok hb (literal s) s.length
  rwa [literal,slice_ofBytes] at hall

theorem string_ok (hb : b.len < kSmallBuffer) (s : Bytes) :
    ∃ d, b.ifRoom s.length (b.appendString s s.length) = .ok d ∧
      Inserted (s.length ≤ kSmallBuffer-1-b.len) b d s :=
  ifRoom_ok hb fun hlen => appendString_ok small hlen

theorem formatted_ok (hb : b.len < kSmallBuffer) {text : Bytes} (htext : text.length < 32) :
    ∃ d, b.formatted text = .ok d ∧ Inserted (32 ≤ kSmallBuffer-1-b.len) b d text :=
  ifRoom_ok hb fun hlen => snprintf_ok small htext hlen

theorem insertChars_ok (hb : b.len < kSmallBuffer) (v : Option CString) :
    ∃ d, b.insertChars v = .ok d ∧
      Inserted ((Item.charsText v).length ≤ kSmallBuffer-1-b.len) b d (Item.charsText v) := by
  cases v with
  | none => exact literal_ok hb (bytes "(null)")
  | some v =>
    have hlen : (Item.charsText (some v)).length = strlen v := by
      rw [Item.charsText,length_slice]
      omega
    rw [hlen]
    exact memory_ok hb v.chars (strlen v)

theorem insert_ok (hb : b.len < kSmallBuffer) (item : Item) :
    ∃ d, b.insert item = .ok d ∧
      Inserted (item.Fits (kSmallBuffer-1-b.len)) b d item.rendering := by
  -- most items ask for their own length, some for the room of a conversion
  have whole {s : Bytes} {n : Int} (hn : n = s.length) {p : Checked LogStream}
      (h : ∃ d, p = .ok d ∧ Inserted (s.length ≤ kSmallBuffer-1-b.len) b d s) :
      ∃ d, p = .ok d ∧ Inserted (0 ≤ n ∧ n ≤ (kSmallBuffer-1-b.len:Nat)) b d s := by
    obtain ⟨d,hd,hins⟩ := h
    exact ⟨d,hd,hins.congr (by omega) fun _ => rfl⟩
  have room {s : Bytes} {p : Checked LogStream}
      (h : ∃ d, p = .ok d ∧ Inserted (32 ≤ kSmallBuffer-1-b.len) b d s) :
      ∃ d, p = .ok d ∧ Inserted ((0:Int) ≤ 32 ∧ 32 ≤ ((kSmallBuffer-1-b.len:Nat):Int)) b d s := by
    obtain ⟨d,hd,hins⟩ := h
    exact ⟨d,hd,hins.congr (by omega) fun _ => rfl⟩
  cases item with
  | bufLen buf len =>
    obtain ⟨d,hd,hins⟩ := memory_ok hb buf (sizeT len.toInt)
    have hsize : kSmallBuffer = 4000 := rfl
    have hlo := len.le_toInt
    have hhi := len.toInt_lt
    refine ⟨d,hd,hins.congr ?_ fun hfit => ?_⟩
    · change 0 ≤ len.toInt ∧ len.toInt ≤ _ ↔ _
      rw [sizeT]
      omega
    · rw [sizeT] at hfit ⊢
      have hn : (((len.toInt%2^64).toNat:Nat):Int) = len.toInt := by omega
      rw [hn]
      rfl
  | bool v =>
    cases v with
    | false => exact whole rfl (literal_ok hb [48])
    | true => exact whole rfl (literal_ok hb [49])
  | short v =>
    rw [insert,Int16.toInt_toInt32]
    exact whole rfl (string_ok hb _)
  | unsignedShort v =>
    rw [insert,UInt16.toNat_toUInt32]
    exact whole rfl (string_ok hb _)
  | int v => exact whole rfl (string_ok hb _)
  | unsignedInt v => exact whole rfl (string_ok hb _)
  | long v => exact whole rfl (string_ok hb _)
  | unsignedLong v => exact whole rfl (string_ok hb _)
  | longLong v => exact whole rfl (string_ok hb _)
  | unsignedLongLong v => exact whole rfl (string_ok hb _)
  | pointer p => exact room (formatted_ok hb (pointerText_length p))
  | float v => exact room (formatted_ok hb v.property)
  | double v => exact room (formatted_ok hb v.property)
  | char v => exact whole rfl (literal_ok hb [v])
  | chars v => exact whole rfl (insertChars_ok hb v)
  | unsignedChars v => exact whole rfl (insertChars_ok hb v)
  | string v => exact whole rfl (string_ok hb v)
  | buffer v =>
    have hlen := v.contents_length
    obtain ⟨d,hd,hins⟩ := memory_ok hb v.buf v.len
    refine whole (s := v.contents) rfl ⟨d,hd,hins.congr ?_ fun _ => rfl⟩
    rw [hlen]
  | endl => exact whole rfl (ifRoom_ok hb fun hlen => appendChar_ok small 10 hlen)

theorem insertAll_ok (hb : b.len < kSmallBuffer) (items : List Item) :
    ∃ d, b.insertAll items = .ok d ∧ d.len < kSmallBuffer ∧
      d.contents = b.contents++(Item.fitting b.len items).flatMap Item.rendering := by
  induction items generalizing b with
  | nil => exact ⟨b,rfl,hb,by simp [Item.fitting]⟩
  | cons item items ih =>
    obtain ⟨c,hc,hins⟩ := insert_ok hb item
    obtain ⟨d,hd,hlen,hcontents⟩ := ih hins.len
    refine ⟨d,?_,hlen,?_⟩
    · rw [insertAll,List.foldlM_cons,hc]
      exact hd
    · rw [hcontents,Item.fitting]
      by_cases hfit : item.Fits (kSmallBuffer-1-b.len)
      · have happ := (hins.all hfit).contents
        have hused : c.len = b.len+item.rendering.length := by
          rw [← c.contents_length,happ,List.length_append,contents_length]
        rw [if_pos hfit,happ,hused,List.flatMap_cons,List.append_assoc]
      · rw [if_neg hfit,hins.nothing hfit]

/-- Whatever is inserted into a new stream, no assertion fails and no store leaves the
buffer; it holds the renderings of the items that have fitted, one behind the other, and
the next item goes in as a whole, closed by a NUL, or changes nothing. -/
theorem insertions (buf : Mem) (items : List Item) :
    ∃ b, insertAll ⟨0,buf⟩ items = .ok b ∧ b.len ≤ kSmallBuffer-1 ∧
      b.contents = (Item.fitting 0 items).flatMap Item.rendering ∧
      (Item.fitting 0 items).Sublist items ∧
      ∀ item : Item, ∃ d, insertAll ⟨0,buf⟩ (items++[item]) = .ok d ∧
        if item.Fits (kSmallBuffer-1-b.len) then
          d.contents = b.contents++item.rendering ∧ (item.rendering ≠ [] → d.buf d.len = 0)
        else d = b := by
  obtain ⟨b,hb,hlen,hcontents⟩ := insertAll_ok (b := ⟨0,buf⟩) (Nat.zero_lt_succ 3999) items
  refine ⟨b,hb,Nat.le_pred_of_lt hlen,?_,Item.fitting_sublist 0 items,fun item => ?_⟩
  · rw [hcontents]
    rfl
  · obtain ⟨d,hd,hins⟩ := insert_ok hlen item
    refine ⟨d,?_,?_⟩
    · rw [insertAll] at hb
      rw [insertAll,List.foldlM_append,hb]
      change b.insert item >>= pure = _
      rw [hd]
      rfl
    · by_cases hfit : item.Fits (kSmallBuffer-1-b.len)
      · rw [if_pos hfit]
        exact ⟨(hins.all hfit).contents,(hins.all hfit).closed⟩
      · rw [if_neg hfit]
        exact hins.nothing hfit

end LogStream
end AdlServer.Log
