import GalaLua.Library.Delimited
import GalaLua.LuaObject.MsgPack

/-!
# Reading MessagePack from a stream

The decoder is put together of readers that know where what they read ends:
an object is read the same whatever follows it, and is missing bytes when it is
cut off anywhere. More objects inside one another than there are bytes are never
looked at, and bytes behind the end of the input only for one kind of head.
-/

namespace GalaLua.LuaObject

open GLR (LuaValue Entries)
open Library (Reader Delimited Agree Blames)

-- ---------------------------------------------------------------------------
-- The decoder as a reader
-- ---------------------------------------------------------------------------

/-- No string is as long as that. -/
abbrev sizes : Nat := 2 ^ 63

abbrev takeBytes (n : Nat) : Reader UInt8 Fault (List UInt8) := Reader.take .eof n

/-- A string of `l` bytes, with the `head` bytes in front of it in the cursor. -/
def stringBehind (head l : Nat) : Reader UInt8 Fault LuaValue := fun c =>
  if head + c.length < (head + l) % 2 ^ 64 then .error .eof
  else if l ≤ c.length then .ok (.string (c.take l), c.drop l)
  else .error .length

section

variable (decode : Reader UInt8 Fault LuaValue)

/-- What is read behind the first byte. -/
def body : Form → Reader UInt8 Fault LuaValue
  | .uint size => (takeBytes size).andThen fun bs => .lift (.ok (pushnumber (ofBigEndian bs)))
  | .int size => (takeBytes size).andThen fun bs => .lift (.ok (pushnumber (signed bs)))
  | .nil => .lift (.ok .nil)
  | .boolean v => .lift (.ok (.boolean v))
  | .float F size => (takeBytes size).andThen fun bs => .lift (.ok (.number (ofBits F (ofBigEndian bs))))
  | .raw size => (takeBytes size).andThen fun bs => stringBehind (1 + size) (lengthOf bs)
  | .array size => (takeBytes size).andThen fun bs => mpDecodeToLuaArray decode (lengthOf bs) 1 []
  | .map size => (takeBytes size).andThen fun bs => mpDecodeToLuaHash decode (lengthOf bs) []
  | .fixnum n => .lift (.ok (pushnumber n))
  | .fixRaw l => stringBehind 1 l
  | .fixArray l => mpDecodeToLuaArray decode l 1 []
  | .fixMap l => mpDecodeToLuaHash decode l []
  | .bad => .lift (.error .badFormat)

end

/-- How many bytes of a length or of a number follow. -/
def Form.size : Form → Nat
  | .uint size | .int size | .float _ size | .raw size | .array size | .map size => size
  | _ => 0

theorem fixForm_cases (b : Nat) : (fixForm b).size = 0 ∧ (∀ size, fixForm b ≠ .raw size) ∧
    ∀ l, fixForm b = .fixRaw l → l < 32 := by
  unfold fixForm
  split_ifs <;> refine ⟨rfl, fun size h => ?_, fun l h => ?_⟩ <;> cases h
  exact Nat.lt_succ_of_le Nat.and_le_right

theorem form_size (b : Nat) : (form b).size ≤ 8 := by
  unfold form
  split
  all_goals first
    | exact (fixForm_cases _).1.trans_le (Nat.zero_le 8)
    | simp only [Form.size, Nat.reduceLeDiff, Nat.zero_le, le_refl]

theorem need_do {α : Type} {b : UInt8} {c : List UInt8} {size : Nat} (h : size ≤ 8) (x : Except Fault α) :
    (do need (b :: c) (1 + size); x) = if c.length < size then .error .eof else x := by
  have hsize : (1 + size) % 2 ^ 64 = 1 + size := Nat.mod_eq_of_lt (by omega)
  rw [need, hsize, List.length_cons]
  by_cases hc : c.length < size
  · rw [if_pos hc, if_pos (by omega)]
    rfl
  · rw [if_neg hc, if_neg (by omega)]
    rfl

theorem need_bind {α : Type} {b : UInt8} {c : List UInt8} {size : Nat} (h : size ≤ 8)
    (next : List UInt8 → Reader UInt8 Fault α) :
    (do need (b :: c) (1 + size); next (c.take size) (c.drop size)) = (takeBytes size).andThen next c := by
  rw [need_do h]
  by_cases hc : c.length < size
  · simp only [takeBytes, Reader.andThen, Reader.take, if_pos hc]
  · simp only [takeBytes, Reader.andThen, Reader.take, if_neg hc]

theorem pushlstring_eq {c bs : List UInt8} {head l : Nat} (h : bs.length = head) :
    pushlstring (bs ++ c) head l = stringBehind head l c := by
  simp only [pushlstring, need, stringBehind, List.length_append, h]
  by_cases hneed : head + c.length < (head + l) % 2 ^ 64
  · rw [if_pos hneed, if_pos hneed]
    rfl
  · rw [if_neg hneed, if_neg hneed]
    by_cases hl : l ≤ c.length
    · have hfront : (bs ++ c).drop head = c := List.drop_left' h
      have hrest : (bs ++ c).drop (head + l) = c.drop l := by rw [← List.drop_drop, hfront]
      simp only [if_pos hl, if_pos (Nat.add_le_add_left hl head), hfront, hrest]
      rfl
    · have hgt : ¬head + l ≤ head + c.length := by omega
      simp only [if_neg hl, if_neg hgt]
      rfl

theorem need_pushlstring (b : UInt8) (c : List UInt8) {size : Nat} (h : size ≤ 8) :
    (do need (b :: c) (1 + size); pushlstring (b :: c) (1 + size) (lengthOf (c.take size))) =
      (takeBytes size).andThen (fun bs => stringBehind (1 + size) (lengthOf bs)) c := by
  rw [← @need_bind _ b c size h, need_do h, need_do h]
  by_cases hc : c.length < size
  · rw [if_pos hc, if_pos hc]
  · have hhead : (b :: c.take size).length = 1 + size := by
      rw [List.length_cons, List.length_take]
      omega
    have hpush := pushlstring_eq (l := lengthOf (c.take size)) (c := c.drop size) hhead
    rw [List.cons_append, List.take_append_drop] at hpush
    rw [if_neg hc, if_neg hc, hpush]

theorem decode_cons (fuel : Nat) (b : UInt8) (c : List UInt8) :
    mpDecodeToLuaType (fuel + 1) (b :: c) = body (mpDecodeToLuaType fuel) (form b.toNat) c := by
  have hsize := form_size b.toNat
  rw [mpDecodeToLuaType]
  generalize form b.toNat = f at hsize
  cases f with
  | uint size => exact need_bind hsize fun bs => .lift (.ok (pushnumber (ofBigEndian bs)))
  | int size => exact need_bind hsize fun bs => .lift (.ok (pushnumber (signed bs)))
  | nil => rfl
  | boolean v => rfl
  | float F size => exact need_bind hsize fun bs => .lift (.ok (LuaValue.number (ofBits F (ofBigEndian bs))))
  | raw size => exact need_pushlstring b c hsize
  | array size => exact need_bind hsize fun bs => mpDecodeToLuaArray _ (lengthOf bs) 1 []
  | map size => exact need_bind hsize fun bs => mpDecodeToLuaHash _ (lengthOf bs) []
  | fixnum n => rfl
  | fixRaw l => exact @pushlstring_eq c [b] 1 l rfl
  | fixArray l => rfl
  | fixMap l => rfl
  | bad => rfl

-- ---------------------------------------------------------------------------
-- What was read ends where it says
-- ---------------------------------------------------------------------------

theorem array_succ (decode : Reader UInt8 Fault LuaValue) (len : Nat) (idx : Int) (entries : Entries) :
    mpDecodeToLuaArray decode (len + 1) idx entries = decode.andThen fun value =>
      (Reader.lift (settable entries (index idx) value)).andThen fun entries =>
        mpDecodeToLuaArray decode len (Int.bmod (idx + 1) (2 ^ 32)) entries := by
  funext c
  simp only [mpDecodeToLuaArray, Reader.andThen, Reader.lift, bind, Except.bind]
  cases decode c with
  | error e => rfl
  | ok p =>
    dsimp only
    cases settable entries (index idx) p.1 <;> rfl

theorem hash_succ (decode : Reader UInt8 Fault LuaValue) (len : Nat) (entries : Entries) :
    mpDecodeToLuaHash decode (len + 1) entries = decode.andThen fun key => decode.andThen fun value =>
      (Reader.lift (settable entries key value)).andThen fun entries =>
        mpDecodeToLuaHash decode len entries := by
  funext c
  simp only [mpDecodeToLuaHash, Reader.andThen, Reader.lift, bind, Except.bind]
  cases decode c with
  | error e => rfl
  | ok p =>
    dsimp only
    cases decode p.2 with
    | error e => rfl
    | ok q =>
      dsimp only
      cases settable entries p.1 q.1 <;> rfl

theorem lift_delimited {α : Type} (x : Except Fault α) :
    Delimited .eof sizes (Reader.lift x : Reader UInt8 Fault α) := .lift x

theorem array_delimited {decode : Reader UInt8 Fault LuaValue} (h : Delimited .eof sizes decode) (len : Nat)
    (idx : Int) (entries : Entries) : Delimited .eof sizes (mpDecodeToLuaArray decode len idx entries) := by
  induction len generalizing idx entries with
  | zero => exact .pure _
  | succ len ih =>
    rw [array_succ]
    exact h.andThen fun value => (lift_delimited _).andThen fun entries => ih _ entries

theorem hash_delimited {decode : Reader UInt8 Fault LuaValue} (h : Delimited .eof sizes decode) (len : Nat)
    (entries : Entries) : Delimited .eof sizes (mpDecodeToLuaHash decode len entries) := by
  induction len generalizing entries with
  | zero => exact .pure _
  | succ len ih =>
    rw [hash_succ]
    exact h.andThen fun key => h.andThen fun value => (lift_delimited _).andThen fun entries => ih entries

theorem stringBehind_of_lt {head l : Nat} (h : head + l < 2 ^ 64) :
    stringBehind head l = (takeBytes l).andThen fun s => .lift (.ok (.string s)) := by
  funext c
  simp only [stringBehind, Nat.mod_eq_of_lt h, takeBytes, Reader.andThen, Reader.take, Reader.lift]
  by_cases hc : c.length < l
  · rw [if_pos hc, if_pos (by omega)]
  · rw [if_neg hc, if_neg (by omega), if_pos (by omega)]

theorem stringBehind_delimited {head : Nat} (hhead : head ≤ 9) (l : Nat) :
    Delimited .eof sizes (stringBehind head l) := by
  rcases Nat.lt_or_ge (head + l) (2 ^ 64) with hlt | hge
  · rw [stringBehind_of_lt hlt]
    exact (Delimited.take l).andThen fun s => .lift _
  · -- no string has so many bytes behind its head
    intro c a r hc h
    have hmore : ¬l ≤ c.length := by
      unfold sizes at hc
      omega
    simp only [stringBehind, if_neg hmore] at h
    split at h <;> cases h

theorem body_delimited {decode : Reader UInt8 Fault LuaValue} (h : Delimited .eof sizes decode) {f : Form}
    (hf : f.size ≤ 8) : Delimited .eof sizes (body decode f) := by
  cases f with
  | uint size => exact (Delimited.take size).andThen fun bs => .lift _
  | int size => exact (Delimited.take size).andThen fun bs => .lift _
  | nil => exact Delimited.lift (.ok LuaValue.nil)
  | boolean v => exact Delimited.lift (.ok (LuaValue.boolean v))
  | float F size => exact (Delimited.take size).andThen fun bs => .lift _
  | raw size => exact (Delimited.take size).andThen fun bs => stringBehind_delimited (Nat.add_le_add_left hf 1) _
  | array size => exact (Delimited.take size).andThen fun bs => array_delimited h _ _ _
  | map size => exact (Delimited.take size).andThen fun bs => hash_delimited h _ _
  | fixnum n => exact Delimited.lift (.ok (pushnumber n))
  | fixRaw l => exact stringBehind_delimited (Nat.le_add_left 1 8) l
  | fixArray l => exact array_delimited h _ _ _
  | fixMap l => exact hash_delimited h _ _
  | bad => exact Delimited.lift (.error Fault.badFormat)

theorem decode_delimited (fuel : Nat) : Delimited .eof sizes (mpDecodeToLuaType fuel) := by
  induction fuel with
  | zero => exact .fail _
  | succ fuel ih =>
    refine .head rfl fun b => ?_
    simp only [decode_cons]
    exact body_delimited ih (form_size _)

-- ---------------------------------------------------------------------------
-- The fuel
-- ---------------------------------------------------------------------------

section

variable {m : Nat} {decode decode' : Reader UInt8 Fault LuaValue} (hm : m < sizes)
  (hd : Delimited .eof sizes decode) (h : Agree m decode decode')
include hm hd h

theorem array_agree (len : Nat) (idx : Int) (entries : Entries) :
    Agree m (mpDecodeToLuaArray decode len idx entries) (mpDecodeToLuaArray decode' len idx entries) := by
  induction len generalizing idx entries with
  | zero => exact fun c _ => rfl
  | succ len ih =>
    rw [array_succ, array_succ]
    refine h.andThen hm hd fun value => ?_
    exact Agree.andThen hm (lift_delimited _) (fun c _ => rfl) fun entries => ih _ entries

theorem hash_agree (len : Nat) (entries : Entries) :
    Agree m (mpDecodeToLuaHash decode len entries) (mpDecodeToLuaHash decode' len entries) := by
  induction len generalizing entries with
  | zero => exact fun c _ => rfl
  | succ len ih =>
    rw [hash_succ, hash_succ]
    refine h.andThen hm hd fun key => h.andThen hm hd fun value => ?_
    exact Agree.andThen hm (lift_delimited _) (fun c _ => rfl) fun entries => ih entries

theorem body_agree (f : Form) : Agree m (body decode f) (body decode' f) := by
  cases f with
  | array size =>
    exact Agree.andThen hm (Delimited.take size) (fun c _ => rfl) fun bs => array_agree hm hd h _ _ _
  | map size =>
    exact Agree.andThen hm (Delimited.take size) (fun c _ => rfl) fun bs => hash_agree hm hd h _ _
  | fixArray l => exact array_agree hm hd h _ _ _
  | fixMap l => exact hash_agree hm hd h _ _
  | _ => exact fun c _ => rfl

end

/-- As much fuel as there are bytes is as good as any more. -/
theorem decode_agree {fuel fuel' : Nat} (hle : fuel ≤ fuel') (hlt : fuel < sizes) :
    Agree fuel (mpDecodeToLuaType fuel) (mpDecodeToLuaType fuel') := by
  induction fuel generalizing fuel' with
  | zero =>
    intro c hc
    rw [List.length_eq_zero_iff.mp (Nat.le_zero.mp hc)]
    cases fuel' <;> rfl
  | succ fuel ih =>
    obtain ⟨fuel', rfl⟩ := Nat.exists_eq_succ_of_ne_zero (Nat.ne_of_gt (Nat.lt_of_lt_of_le (Nat.succ_pos fuel) hle))
    intro c hc
    cases c with
    | nil => rfl
    | cons b c =>
      rw [decode_cons, decode_cons]
      have hrest := ih (Nat.le_of_succ_le_succ hle) (Nat.lt_of_succ_lt hlt)
      exact body_agree (Nat.lt_of_succ_lt hlt) (decode_delimited fuel) hrest _ c (Nat.le_of_succ_le_succ hc)

theorem decode_length {fuel : Nat} {c : List UInt8} (h : c.length ≤ fuel) (hc : c.length < sizes) :
    mpDecodeToLuaType fuel c = mpDecodeToLuaType c.length c := (decode_agree h hc c le_rfl).symm

-- ---------------------------------------------------------------------------
-- Packed values in a stream
-- ---------------------------------------------------------------------------

theorem unpack_eq_ok {s : List UInt8} {v : LuaValue} :
    mpUnpack (.string s) = .ok v ↔ mpDecodeToLuaType s.length s = .ok (v, []) := by
  rw [mpUnpack]
  constructor
  · intro h
    split at h
    · cases h
    · cases h
    · cases h
    · rename_i v' c hdec
      rw [hdec]
      split at h
      · cases h
      · rename_i hc
        rw [List.length_eq_zero_iff.mp (not_not.mp hc), Except.ok.inj h]
  · intro h
    rw [h]
    rfl

/-- What is accepted is accepted in one way: cut off anywhere it is missing
bytes, and with anything behind it there are bytes too many. -/
theorem unpack_delimited {s : List UInt8} {v : LuaValue} (hs : mpUnpack (.string s) = .ok v) :
    (∀ k < s.length, s.length < 2 ^ 63 →
      mpUnpack (.string (s.take k)) = .error (.luaError "Missing bytes in input.")) ∧
    ∀ extra ≠ [], (s ++ extra).length < 2 ^ 63 →
      mpUnpack (.string (s ++ extra)) = .error (.luaError "Extra bytes in input.") := by
  rw [unpack_eq_ok] at hs
  refine ⟨fun k hk hlt => ?_, fun extra hextra hlt => ?_⟩
  · obtain ⟨used, hused, htakes⟩ := decode_delimited _ s v [] hlt hs
    rw [List.append_nil] at hused
    subst hused
    have hmissing := htakes.missing k hk hlt
    have hlen : (s.take k).length ≤ s.length := by
      rw [List.length_take]
      exact Nat.min_le_right ..
    rw [decode_length hlen (Nat.lt_of_le_of_lt hlen hlt)] at hmissing
    rw [mpUnpack, hmissing]
  · have hle : s.length ≤ (s ++ extra).length := by
      rw [List.length_append]
      exact Nat.le_add_right ..
    rw [← decode_length hle (Nat.lt_of_le_of_lt hle hlt)] at hs
    obtain ⟨used, hused, htakes⟩ := decode_delimited _ s v [] (Nat.lt_of_le_of_lt hle hlt) hs
    rw [List.append_nil] at hused
    subst hused
    have hmore : extra.length ≠ 0 := fun h => hextra (List.length_eq_zero_iff.mp h)
    simp only [mpUnpack, htakes.always extra hlt, if_pos hmore]

theorem array_of_one_delimited :
    mpUnpack (.string ([0x91, 0xa1, 0x61].take 2)) = .error (.luaError "Missing bytes in input.") ∧
      mpUnpack (.string ([0x91, 0xa1, 0x61] ++ [0xc0])) = .error (.luaError "Extra bytes in input.") := by
  have hone : mpUnpack (.string [0x91, 0xa1, 0x61]) = .ok (.table [(index 1, .string [0x61])]) := rfl
  have h := unpack_delimited hone
  exact ⟨h.1 2 (by decide) (by decide), h.2 [0xc0] (by decide) (by decide)⟩

-- ---------------------------------------------------------------------------
-- Strings longer than the input
-- ---------------------------------------------------------------------------

/-- The head of a string of which the length and the head together are no
`size_t` any more, so that `mp_cur_need` lets it pass. -/
def Overlong (c : List UInt8) : Prop :=
  ∃ b post, c = 0xdb :: 0xff :: 0xff :: 0xff :: b :: post ∧ 0xfb ≤ b

theorem form_raw {b size : Nat} (h : form b = .raw size) : size = 2 ∨ (size = 4 ∧ b = 0xdb) := by
  unfold form at h
  split at h
  all_goals first
    | exact absurd h ((fixForm_cases _).2.1 size)
    | cases h
  · exact .inl rfl
  · exact .inr ⟨rfl, rfl⟩

theorem form_fixRaw {b l : Nat} (h : form b = .fixRaw l) : l < 32 := by
  unfold form at h
  split at h
  all_goals first
    | exact (fixForm_cases _).2.2 l h
    | cases h

theorem ofBigEndian_four (a b c d : UInt8) :
    ofBigEndian [a, b, c, d] = ((a.toNat * 256 + b.toNat) * 256 + c.toNat) * 256 + d.toNat := by
  simp only [ofBigEndian, Library.Endian.decode, List.map_cons, List.map_nil, List.reverse_cons,
    List.reverse_nil, List.nil_append, List.cons_append, Library.ofLowBytes, UInt8.toNat_toBitVec]
  omega

/-- Four bytes of a length that is no `size_t` with the head any more. -/
theorem extended_overlong {bs : List UInt8} (hbs : bs.length = 4) (h : 2 ^ 64 ≤ 5 + extended bs) :
    ∃ b, bs = [0xff, 0xff, 0xff, b] ∧ 0xfb ≤ b := by
  obtain ⟨a, b, c, d, rfl⟩ := List.length_eq_four.mp hbs
  have ha := a.toNat_lt
  have hb := b.toNat_lt
  have hc := c.toNat_lt
  have hd := d.toNat_lt
  rw [extended_eq, ofBigEndian_four] at h
  have hall : a.toNat = 255 ∧ b.toNat = 255 ∧ c.toNat = 255 ∧ 251 ≤ d.toNat := by
    split at h <;> omega
  obtain ⟨ha, hb, hc, hd⟩ := hall
  refine ⟨d, ?_, UInt8.le_iff_toNat_le.mpr hd⟩
  rw [UInt8.toNat_inj.mp (ha.trans (by rfl : 255 = (0xff : UInt8).toNat)),
    UInt8.toNat_inj.mp (hb.trans (by rfl : 255 = (0xff : UInt8).toNat)),
    UInt8.toNat_inj.mp (hc.trans (by rfl : 255 = (0xff : UInt8).toNat))]

section

variable {α : Type} {x : Except Fault α} {decode : Reader UInt8 Fault LuaValue}

theorem lift_blames (h : x ≠ .error .length) : Blames sizes .length Overlong (Reader.lift x) := by
  intro c _ herr
  cases x with
  | ok a => cases herr
  | error e => exact absurd (congrArg Except.error (Except.error.inj herr)) h

theorem take_blames (n : Nat) : Blames sizes .length Overlong (takeBytes n) := by
  intro c _ herr
  simp only [takeBytes, Reader.take] at herr
  split at herr <;> cases herr

theorem settable_ne_length (entries : Entries) (key value : LuaValue) :
    settable entries key value ≠ .error .length := by
  unfold settable
  split <;> exact fun h => by cases h

theorem stringBehind_blames {head l : Nat} (h : head + l < 2 ^ 64) :
    Blames sizes .length Overlong (stringBehind head l) := by
  rw [stringBehind_of_lt h]
  exact (take_blames l).andThen (Delimited.take l) fun s => lift_blames fun h => by cases h

theorem array_blames (hd : Delimited .eof sizes decode) (h : Blames sizes .length Overlong decode)
    (len : Nat) (idx : Int) (entries : Entries) :
    Blames sizes .length Overlong (mpDecodeToLuaArray decode len idx entries) := by
  induction len generalizing idx entries with
  | zero => exact fun c _ herr => by cases herr
  | succ len ih =>
    rw [array_succ]
    refine h.andThen hd fun value => ?_
    exact (lift_blames (settable_ne_length _ _ _)).andThen (lift_delimited _) fun entries => ih _ entries

theorem hash_blames (hd : Delimited .eof sizes decode) (h : Blames sizes .length Overlong decode)
    (len : Nat) (entries : Entries) :
    Blames sizes .length Overlong (mpDecodeToLuaHash decode len entries) := by
  induction len generalizing entries with
  | zero => exact fun c _ herr => by cases herr
  | succ len ih =>
    rw [hash_succ]
    refine h.andThen hd fun key => h.andThen hd fun value => ?_
    exact (lift_blames (settable_ne_length _ _ _)).andThen (lift_delimited _) fun entries => ih entries

/-- A string longer than the input has one of the overlong heads. -/
theorem raw_blames {size : Nat} {b : UInt8} {c : List UInt8} (hf : form b.toNat = .raw size)
    (h : (takeBytes size).andThen (fun bs => stringBehind (1 + size) (lengthOf bs)) c = .error .length) :
    Overlong (b :: c) := by
  simp only [takeBytes, Reader.andThen, Reader.take] at h
  by_cases hc : c.length < size
  · rw [if_pos hc] at h
    cases h
  · rw [if_neg hc] at h
    change stringBehind (1 + size) (lengthOf (c.take size)) (c.drop size) = .error .length at h
    have hlen : (c.take size).length = size := by
      rw [List.length_take]
      omega
    have hover : 2 ^ 64 ≤ 1 + size + lengthOf (c.take size) := by
      by_contra hlt
      rw [stringBehind_of_lt (not_le.mp hlt)] at h
      simp only [takeBytes, Reader.andThen, Reader.take, Reader.lift] at h
      split at h
      · cases h
      · rename_i hif
        split at hif <;> cases hif
        cases h
    rcases form_raw hf with rfl | ⟨rfl, hb⟩
    · have hlt := ofBigEndian_lt (c.take 2)
      rw [lengthOf, if_pos hlen] at hover
      rw [hlen] at hlt
      omega
    · have hne : (c.take 4).length ≠ 2 := by omega
      rw [lengthOf, if_neg hne] at hover
      obtain ⟨d, hd, hle⟩ := extended_overlong hlen hover
      refine ⟨d, c.drop 4, ?_, hle⟩
      have hb' : b = 0xdb := UInt8.toNat_inj.mp hb
      conv_lhs => rw [← List.take_append_drop 4 c, hd, hb']
      rfl

theorem decode_blames (fuel : Nat) : Blames sizes .length Overlong (mpDecodeToLuaType fuel) := by
  induction fuel with
  | zero => exact fun c _ herr => by cases herr
  | succ fuel ih =>
    intro c hc herr
    cases c with
    | nil => cases herr
    | cons b c =>
      rw [decode_cons] at herr
      have hd := decode_delimited fuel
      have hclt : c.length < sizes := Nat.lt_of_succ_lt hc
      have inside : Blames sizes .length Overlong (body (mpDecodeToLuaType fuel) (form b.toNat)) →
          ∃ place, place <:+ b :: c ∧ Overlong place := fun hblames => by
        obtain ⟨place, hsuf, hover⟩ := hblames c hclt herr
        exact ⟨place, hsuf.trans (List.suffix_cons b c), hover⟩
      generalize hf : form b.toNat = f at herr inside
      cases f with
      | raw size => exact ⟨b :: c, List.suffix_rfl, raw_blames hf herr⟩
      | fixRaw l =>
        have hl := form_fixRaw hf
        exact inside (stringBehind_blames (by omega))
      | uint size =>
        exact inside ((take_blames size).andThen (Delimited.take size) fun bs => lift_blames fun h => by cases h)
      | int size =>
        exact inside ((take_blames size).andThen (Delimited.take size) fun bs => lift_blames fun h => by cases h)
      | float F size =>
        exact inside ((take_blames size).andThen (Delimited.take size) fun bs => lift_blames fun h => by cases h)
      | array size =>
        exact inside ((take_blames size).andThen (Delimited.take size) fun bs => array_blames hd ih _ _ _)
      | map size =>
        exact inside ((take_blames size).andThen (Delimited.take size) fun bs => hash_blames hd ih _ _)
      | fixArray l => exact inside (array_blames hd ih _ _ _)
      | fixMap l => exact inside (hash_blames hd ih _ _)
      | nil => cases herr
      | boolean v => cases herr
      | fixnum n => cases herr
      | bad => cases herr

theorem unpack_eq_length {s : List UInt8} :
    mpUnpack (.string s) = .error .length ↔ mpDecodeToLuaType s.length s = .error .length := by
  rw [mpUnpack]
  constructor
  · intro h
    split at h
    · cases h
    · cases h
    · rename_i hdec
      rw [hdec, Except.error.inj h]
    · split at h <;> cases h
  · intro h
    rw [h]

/-- No string that is read reaches behind the end of the input unless one of
five heads of a string is in it; such a head in front of anything does. -/
theorem unpack_within (s : List UInt8) (hs : s.length < 2 ^ 63) :
    (mpUnpack (.string s) = .error .length → ∃ place, place <:+ s ∧ Overlong place) ∧
      (Overlong s → mpUnpack (.string s) = .error .length) := by
  refine ⟨fun h => decode_blames _ s hs (unpack_eq_length.mp h), fun h => unpack_eq_length.mpr ?_⟩
  obtain ⟨b, post, rfl, hb⟩ := h
  have hlow : 251 ≤ b.toNat := UInt8.le_iff_toNat_le.mp hb
  have hhigh := b.toNat_lt
  have hform : form (0xdb : UInt8).toNat = .raw 4 := rfl
  have hsize : extended [0xff, 0xff, 0xff, b] = 2 ^ 64 - 256 + b.toNat := by
    have hval : ofBigEndian [0xff, 0xff, 0xff, b] = 2 ^ 32 - 256 + b.toNat := ofBigEndian_four ..
    rw [extended_eq, hval, Nat.mod_eq_of_lt (by omega), if_neg (by omega)]
    omega
  have hpass : ¬1 + 4 + post.length < (1 + 4 + extended [0xff, 0xff, 0xff, b]) % 2 ^ 64 := by
    rw [hsize]
    omega
  have hmore : ¬extended [0xff, 0xff, 0xff, b] ≤ post.length := by
    simp only [List.length_cons] at hs
    omega
  have hlen : lengthOf [0xff, 0xff, 0xff, b] = extended [0xff, 0xff, 0xff, b] := if_neg (by simp)
  have hread := @Reader.take_append UInt8 Fault LuaValue .eof [0xff, 0xff, 0xff, b] 4 rfl
    (fun bs => stringBehind (1 + 4) (lengthOf bs)) post
  rw [List.length_cons, decode_cons, hform, body]
  refine hread.trans ?_
  rw [hlen, stringBehind, if_neg hpass, if_neg hmore]

theorem five_bytes_overrun : mpUnpack (.string [0xdb, 0xff, 0xff, 0xff, 0xff]) = .error .length :=
  (unpack_within _ (by decide)).2 ⟨0xff, [], rfl, by decide⟩

end

end GalaLua.LuaObject
