import GalaLua.Frameworks.Rpc

/-!
# The queue server

`core.queue`: a `get` takes the first item, or waits in `_customerq`; a `put`
gives its item to the first customer, or to `_dataq`. Items go out on two ways,
as the result of `get` and by `_send` from `put`. A run here is a list of calls;
`main_eq_round` says that each is one turn of the loop in `Rpc`.
-/

namespace GalaLua.Frameworks.Queue

open Library Rpc Wrappers

-- ---------------------------------------------------------------------------
-- collections.queue
-- ---------------------------------------------------------------------------

/-- A table with the elements at the indices from `head + 1` to `tail`. -/
structure Deque (α : Type) where
  head : Int
  tail : Int
  self : Int → Option α

namespace Deque

variable {α : Type}

def new : Deque α := ⟨0, 0, fun _ => none⟩

/-- `assert(x ~= nil)` fails for nothing. -/
def pushRight (q : Deque α) : Option α → Option (Deque α)
  | none => none
  | some x => some { q with tail := q.tail + 1, self := Function.update q.self (q.tail + 1) (some x) }

def length (q : Deque α) : Int := q.tail - q.head

def isEmpty (q : Deque α) : Bool := q.length == 0

def popLeft (q : Deque α) : Option α × Deque α :=
  if q.isEmpty then (none, q)
  else
    (q.self (q.head + 1),
      { q with head := q.head + 1, self := Function.update q.self (q.head + 1) none })

def contents (q : Deque α) : List α :=
  (List.range q.length.toNat).filterMap fun i : Nat => q.self (q.head + 1 + (i : Int))

structure Holds (q : Deque α) (xs : List α) : Prop where
  tail : q.tail = q.head + xs.length
  get : ∀ i : Nat, q.self (q.head + 1 + i) = xs[i]?

variable {q : Deque α} {xs : List α} {x : α}

theorem holds_new : Holds (new : Deque α) [] where
  tail := rfl
  get _ := rfl

theorem Holds.length_eq (h : Holds q xs) : q.length = xs.length := by
  have := h.tail
  unfold Deque.length
  omega

theorem Holds.isEmpty_iff (h : Holds q xs) : q.isEmpty ↔ xs = [] := by
  simp [Deque.isEmpty, h.length_eq]

theorem Holds.isEmpty_cons (h : Holds q (x :: xs)) : q.isEmpty = false :=
  Bool.eq_false_iff.mpr fun he => List.cons_ne_nil x xs (h.isEmpty_iff.mp he)

theorem Holds.contents_eq (h : Holds q xs) : q.contents = xs := by
  unfold Deque.contents
  rw [h.length_eq, Int.toNat_natCast]
  simp only [h.get]
  clear h
  induction xs with
  | nil => rfl
  | cons x xs ih => simpa [List.range_succ_eq_map, List.filterMap_map, Function.comp_def] using ih

theorem Holds.pushRight (h : Holds q xs) (x : α) :
    ∃ q', q.pushRight (some x) = some q' ∧ Holds q' (xs ++ [x]) := by
  have htail := h.tail
  refine ⟨_, rfl, ?_, fun i => ?_⟩
  · simp only [List.length_append, List.length_singleton]
    omega
  · dsimp only
    rcases Nat.lt_trichotomy i xs.length with hi | rfl | hi
    · rw [Function.update_of_ne (by omega), h.get, List.getElem?_append_left hi]
    · rw [htail, Int.add_right_comm, Function.update_self]
      simp
    · rw [Function.update_of_ne (by omega), h.get, List.getElem?_eq_none (by omega),
        List.getElem?_eq_none (by simp; omega)]

theorem Holds.popLeft (h : Holds q (x :: xs)) :
    ∃ q', q.popLeft = (some x, q') ∧ Holds q' xs := by
  have htail := h.tail
  have hx : q.self (q.head + 1) = some x := by simpa using h.get 0
  have hpop : q.popLeft = (q.self (q.head + 1), _) := if_neg (by simp [h.isEmpty_cons])
  refine ⟨_, hx ▸ hpop, ?_, fun i => ?_⟩
  · simp only [List.length_cons] at htail ⊢
    omega
  · have hget := h.get (i + 1)
    rw [List.getElem?_cons_succ] at hget
    dsimp only
    rw [Function.update_of_ne (by omega), ← hget]
    congr 1
    omega

end Deque

-- ---------------------------------------------------------------------------
-- The methods
-- ---------------------------------------------------------------------------

/-- `logger`: the object has a `_logger`. -/
structure Fields where
  dataq : Deque Value
  customerq : Deque Desc
  logger : Bool

def get : Method Fields := fun o _ desc =>
  if o.fields.dataq.isEmpty then
    match o.fields.customerq.pushRight (some desc) with
    | none => ⟨[], o, .error (.other "assertion failed!")⟩
    | some q => ⟨[], { o with fields := { o.fields with customerq := q } }, .ok (.noResponse, .nil)⟩
  else
    let r := o.fields.dataq.popLeft
    ⟨[], { o with fields := { o.fields with dataq := r.2 } }, .ok (.value (r.1.getD .nil), .nil)⟩

/-- There is no `on_put`. -/
def put : Method Fields := fun o params _ =>
  if o.fields.logger = false then ⟨[], o, .error (.other "attempt to index field '_logger'")⟩
  else if o.fields.customerq.isEmpty then
    match o.fields.dataq.pushRight params.toOption with
    | none => ⟨[], o, .error (.other "assertion failed!")⟩
    | some q => ⟨[], { o with fields := { o.fields with dataq := q } }, .ok (.noResponse, .nil)⟩
  else
    let r := o.fields.customerq.popLeft
    let o := { o with fields := { o.fields with customerq := r.2 } }
    match r.1 with
    | none => ⟨[], o, .error (.other "attempt to index")⟩
    | some customer => ⟨[send customer params], o, .ok (.noResponse, .nil)⟩

inductive Op
  | get (id : Value) (desc : Desc)
  | put (id params : Value) (desc : Desc)

def Op.round (o : Object Fields) : Op → Round Fields
  | .get id desc => Method.round Queue.get o .nil id desc
  | .put id params desc => Method.round Queue.put o params id desc

/-- The server object; its `on_timeout` does nothing. -/
def server (unpack : Option (List UInt8) → Except String Value) : Class Fields where
  unpack := unpack
  password := fun _ => .nil
  member := fun _ key =>
    match key with
    | .string "get" => some (.method get)
    | .string "put" => some (.method put)
    | _ => none
  onInit := fun o => ⟨[], o, .ok ()⟩
  onStop := fun o => ⟨[], o, .ok ()⟩
  onTimeout := fun o => ⟨[], o, .ok ()⟩
  onMessage := fun _ o => ⟨[], o, .ok ()⟩

/-- The request in a message for the server. -/
def op? (unpack : Option (List UInt8) → Except String Value) (m : Mail) : Option Op :=
  match unpack m.msg with
  | .ok (.table fields) =>
    let id := (fields.lookup "id").getD .nil
    match fields.lookup "method" with
    | some (.string "get") => some (.get id m.desc)
    | some (.string "put") => some (.put id ((fields.lookup "params").getD .nil) m.desc)
    | _ => none
  | _ => none

theorem round_error (o : Object Fields) (op : Op) :
    (op.round o).error = none ∨ ∃ e, (op.round o).error = some (.other e) := by
  cases op with
  | get id desc =>
    simp only [Op.round, Method.round, get]
    by_cases h : o.fields.dataq.isEmpty
    · simp [h, Deque.pushRight]
    · simp [h]
  | put id params desc =>
    have hput : (∃ r, (put o params desc).result = .ok r) ∨
        ∃ e, (put o params desc).result = .error (.other e) := by
      unfold put
      dsimp only
      repeat' split
      all_goals first | exact .inl ⟨_, rfl⟩ | exact .inr ⟨_, rfl⟩
    rcases hput with ⟨r, hr⟩ | ⟨e, he⟩
    · exact .inl (by simp [Op.round, Method.round, hr])
    · exact .inr ⟨e, by simp [Op.round, Method.round, he]⟩

/-- `_main` takes a request with one round, and goes on with the object that the
round leaves, also when it raises. -/
theorem main_eq_round {unpack : Option (List UInt8) → Except String Value} {m : Mail} {op : Op}
    (hcorrid : m.desc.attr.corrid = RPC_CORRID) (hop : op? unpack m = some op) (o : Object Fields) :
    main (server unpack) ⟨o, .running⟩ (.mail m) =
      ((op.round o).events, ⟨(op.round o).object, .running⟩) := by
  have hrequest : request (server unpack) o m = op.round o := by
    unfold op? at hop
    split at hop
    · next fields hu =>
      simp only at hop
      split at hop
      · next hm =>
        cases hop
        have hr : resolve (server unpack) o m = .ok (.method get, (fields.lookup "params").getD .nil,
            (fields.lookup "id").getD .nil) := by
          simp [resolve, server, hu, Value.index, hm, Value.truthy, lookup, bind, Except.bind, pure,
            Except.pure]
        simp only [request, hr]
        rfl
      · next hm =>
        cases hop
        have hr : resolve (server unpack) o m = .ok (.method put, (fields.lookup "params").getD .nil,
            (fields.lookup "id").getD .nil) := by
          simp [resolve, server, hu, Value.index, hm, Value.truthy, lookup, bind, Except.bind, pure,
            Except.pure]
        simp only [request, hr]
        rfl
      · cases hop
    · cases hop
  rw [main_of_takes ⟨rfl, rfl, hcorrid⟩, hrequest]
  rcases round_error o op with he | ⟨e, he⟩
  · simp only [he]
  · simp only [he, entry, server, List.map_nil, List.append_nil]

/-- The server with all that was asked of it and all that it has sent: to whom,
for which request and with which result. -/
structure State where
  object : Object Fields
  gets : List Desc
  puts : List Value
  answers : List (Addr × Int × Value)

def answer : Event → Addr × Int × Value
  | .own s | .reply s => (s.addr, s.corrid, s.body.result)

/-- After an error `_main` enters the loop again, with the same object. -/
def State.next (s : State) (op : Op) : State where
  object := (op.round s.object).object
  gets := s.gets ++ match op with | .get _ desc => [desc] | .put .. => []
  puts := s.puts ++ match op with | .get .. => [] | .put _ params _ => [params]
  answers := s.answers ++ (op.round s.object).events.map answer

/-- `queue_server:new`; a class derived from it may set a `_logger`. -/
def State.init (logger : Bool) : State := ⟨⟨⟨.new, .new, logger⟩, none⟩, [], [], []⟩

abbrev State.dataq (s : State) : Deque Value := s.object.fields.dataq

abbrev State.customerq (s : State) : Deque Desc := s.object.fields.customerq

-- ---------------------------------------------------------------------------
-- Matching
-- ---------------------------------------------------------------------------

def delivery (desc : Desc) (item : Value) : Addr × Int × Value := (desc.addr, desc.attr.msgid, item)

/-- The `k`-th item was sent to the `k`-th getter; the other items, or the
other getters, wait in their order. -/
structure State.Matched (s : State) : Prop where
  one : s.dataq.isEmpty ∨ s.customerq.isEmpty
  answers : s.answers = List.zipWith delivery s.gets s.puts
  data : s.dataq.contents = s.puts.drop s.gets.length
  customers : s.customerq.contents = s.gets.drop s.puts.length

/-- A `get` does not find the item `false`, and a `put` has a `_logger` and, when
nobody waits, an item. -/
def State.Clear (s : State) : Op → Prop
  | .get .. => ∀ v ∈ s.dataq.contents.head?, v.truthy
  | .put _ params _ =>
    s.object.fields.logger ∧ (s.customerq.isEmpty → params.toOption.isSome)

/-- The two tables are deques, and no item is nil. -/
def State.Rep (s : State) : Prop :=
  (∃ xs, s.dataq.Holds xs ∧ ∀ v ∈ xs, v.toOption.isSome) ∧ ∃ ys, s.customerq.Holds ys

variable {s : State} {xs : List Value} {ys : List Desc}

/-- The getters and the items that were matched, and those that wait. -/
structure State.Split (s : State) (xs : List Value) (ys gs : List Desc) (ps : List Value) : Prop where
  length : gs.length = ps.length
  gets : s.gets = gs ++ ys
  puts : s.puts = ps ++ xs
  answers : s.answers = List.zipWith delivery gs ps
  one : xs = [] ∨ ys = []

theorem zipWith_append_nil {gs : List Desc} {ps : List Value} (h : gs.length = ps.length)
    (hone : xs = [] ∨ ys = []) :
    List.zipWith delivery (gs ++ ys) (ps ++ xs) = List.zipWith delivery gs ps := by
  rw [List.zipWith_append h]
  obtain rfl | rfl := hone
  · rw [List.zipWith_nil_right, List.append_nil]
  · rw [List.zipWith_nil_left, List.append_nil]

theorem State.Split.matched {gs : List Desc} {ps : List Value} (hx : s.dataq.Holds xs)
    (hy : s.customerq.Holds ys) (h : s.Split xs ys gs ps) : s.Matched where
  one := h.one.imp hx.isEmpty_iff.mpr hy.isEmpty_iff.mpr
  answers := by rw [h.answers, h.gets, h.puts, zipWith_append_nil h.length h.one]
  data := by
    rw [hx.contents_eq, h.gets, h.puts, List.length_append, h.length, ← List.drop_drop, List.drop_left]
    obtain rfl | rfl := h.one
    · simp
    · simp
  customers := by
    rw [hy.contents_eq, h.gets, h.puts, List.length_append, ← h.length, ← List.drop_drop,
      List.drop_left]
    obtain rfl | rfl := h.one
    · simp
    · simp

theorem State.Matched.split (h : s.Matched) (hx : s.dataq.Holds xs) (hy : s.customerq.Holds ys) :
    ∃ gs ps, s.Split xs ys gs ps := by
  have hdata := hx.contents_eq.symm.trans h.data
  have hcustomers := hy.contents_eq.symm.trans h.customers
  have hone : xs = [] ∨ ys = [] := h.one.imp hx.isEmpty_iff.mp hy.isEmpty_iff.mp
  have hlength : (s.gets.take s.puts.length).length = (s.puts.take s.gets.length).length := by
    simp only [List.length_take]
    omega
  have hgets : s.gets = s.gets.take s.puts.length ++ ys := by
    rw [hcustomers, List.take_append_drop]
  have hputs : s.puts = s.puts.take s.gets.length ++ xs := by
    rw [hdata, List.take_append_drop]
  refine ⟨_, _, hlength, hgets, hputs, ?_, hone⟩
  rw [h.answers, ← zipWith_append_nil hlength hone, ← hgets, ← hputs]

-- ---------------------------------------------------------------------------
-- One request
-- ---------------------------------------------------------------------------

variable {id v : Value} {d d' : Desc}

theorem next_get_nil (id : Value) (d : Desc) (hx : s.dataq.Holds []) (hy : s.customerq.Holds ys) :
    (s.next (.get id d)).dataq.Holds [] ∧ (s.next (.get id d)).customerq.Holds (ys ++ [d]) ∧
      (s.next (.get id d)).answers = s.answers := by
  obtain ⟨q, hq, hh⟩ := hy.pushRight d
  simp only [State.next, State.dataq, State.customerq, Op.round, Method.round, get,
    hx.isEmpty_iff.mpr, hq, if_true, respond, List.map_nil, List.append_nil, and_true]
  exact ⟨hx, hh⟩

theorem next_get_cons (id : Value) (d : Desc) (hx : s.dataq.Holds (v :: xs)) :
    (s.next (.get id d)).dataq.Holds xs ∧ (s.next (.get id d)).customerq = s.customerq ∧
      (s.next (.get id d)).answers =
        s.answers ++ [delivery d (if v.truthy then v else .nil)] := by
  obtain ⟨q, hq, hh⟩ := hx.popLeft
  have hne := hx.isEmpty_cons
  simp only [State.next, State.dataq, State.customerq, Op.round, Method.round, get, hne, hq,
    Bool.false_eq_true, if_false, Option.getD_some, true_and]
  refine ⟨hh, ?_⟩
  simp only [respond]
  split
  · rfl
  · rfl

theorem next_put_nil (id : Value) (d : Desc) (hl : s.object.fields.logger) (hx : s.dataq.Holds xs)
    (hy : s.customerq.Holds []) (hv : v.toOption = some v) :
    (s.next (.put id v d)).dataq.Holds (xs ++ [v]) ∧
      (s.next (.put id v d)).customerq = s.customerq ∧
      (s.next (.put id v d)).answers = s.answers := by
  obtain ⟨q, hq, hh⟩ := hx.pushRight v
  simp only [State.next, State.dataq, State.customerq, Op.round, Method.round, put, hl,
    hy.isEmpty_iff.mpr, hv, hq, Bool.true_eq_false, if_false, if_true, respond, List.map_nil,
    List.append_nil, and_true]
  exact hh

theorem next_put_cons (id v : Value) (d : Desc) (hl : s.object.fields.logger) (hy : s.customerq.Holds (d' :: ys)) :
    (s.next (.put id v d)).dataq = s.dataq ∧ (s.next (.put id v d)).customerq.Holds ys ∧
      (s.next (.put id v d)).answers = s.answers ++ [delivery d' v] := by
  obtain ⟨q, hq, hh⟩ := hy.popLeft
  have hne := hy.isEmpty_cons
  simp only [State.next, State.dataq, State.customerq, Op.round, Method.round, put, hl, hne, hq,
    Bool.false_eq_true, Bool.true_eq_false, if_false, respond, List.append_nil, true_and]
  exact ⟨hh, rfl⟩

theorem next_put_lost (h : ¬ s.Clear (.put id v d)) :
    (s.next (.put id v d)).object = s.object ∧ (s.next (.put id v d)).answers = s.answers := by
  have hput : ∃ e, put s.object v d = ⟨[], s.object, .error e⟩ := by
    unfold put
    split
    · exact ⟨_, rfl⟩
    · next hl =>
      simp only [State.Clear, Bool.not_eq_false] at h hl
      simp only [hl, true_and, Classical.not_imp, Option.not_isSome_iff_eq_none] at h
      simp only [h.1, h.2, if_true, Deque.pushRight]
      exact ⟨_, rfl⟩
  obtain ⟨e, he⟩ := hput
  simp [State.next, Op.round, Method.round, he]

theorem toOption_eq (h : v.toOption.isSome) : v.toOption = some v := by
  cases v <;> first | rfl | cases h

theorem next_gets_get : (s.next (.get id d)).gets = s.gets ++ [d] := rfl

theorem next_puts_get : (s.next (.get id d)).puts = s.puts := List.append_nil _

theorem next_gets_put : (s.next (.put id v d)).gets = s.gets := List.append_nil _

theorem next_puts_put : (s.next (.put id v d)).puts = s.puts ++ [v] := rfl

/-- Every request leaves two deques without nil. -/
theorem State.Rep.next (h : s.Rep) (op : Op) : (s.next op).Rep := by
  obtain ⟨⟨xs, hx, hxs⟩, ys, hy⟩ := h
  cases op with
  | get id d =>
    cases xs with
    | nil =>
      obtain ⟨hx', hy', -⟩ := next_get_nil id d hx hy
      exact ⟨⟨[], hx', nofun⟩, _, hy'⟩
    | cons v xs =>
      obtain ⟨hx', hc, -⟩ := next_get_cons id d hx
      exact ⟨⟨xs, hx', fun w hw => hxs w (List.mem_cons_of_mem v hw)⟩, ys, hc ▸ hy⟩
  | put id v d =>
    by_cases hclear : s.Clear (.put id v d)
    · obtain ⟨hl, hv⟩ := hclear
      cases ys with
      | nil =>
        have hv := hv (hy.isEmpty_iff.mpr rfl)
        obtain ⟨hx', hc, -⟩ := next_put_nil id d hl hx hy (toOption_eq hv)
        refine ⟨⟨_, hx', fun w hw => ?_⟩, [], hc ▸ hy⟩
        rcases List.mem_append.mp hw with hw | hw
        · exact hxs w hw
        · rwa [List.mem_singleton.mp hw]
      | cons d' ys =>
        obtain ⟨hd, hy', -⟩ := next_put_cons id v d hl hy
        exact ⟨⟨xs, hd ▸ hx, hxs⟩, ys, hy'⟩
    · obtain ⟨ho, -⟩ := next_put_lost hclear
      simp only [State.Rep, State.dataq, State.customerq, ho]
      exact ⟨⟨xs, hx, hxs⟩, ys, hy⟩

theorem not_matched_of_lost (h : s.Matched) (hclear : ¬ s.Clear (.put id v d)) :
    ¬ (s.next (.put id v d)).Matched := by
  intro h'
  obtain ⟨ho, -⟩ := next_put_lost hclear
  have hdata : s.dataq.contents = (s.puts ++ [v]).drop s.gets.length := by
    have := h'.data
    rwa [next_gets_put, next_puts_put, State.dataq, ho] at this
  have hcustomers : s.customerq.contents = s.gets.drop (s.puts ++ [v]).length := by
    have := h'.customers
    rwa [next_gets_put, next_puts_put, State.customerq, ho] at this
  have h₁ := congrArg List.length (h.data.symm.trans hdata)
  have h₂ := congrArg List.length (h.customers.symm.trans hcustomers)
  simp only [List.length_drop, List.length_append, List.length_singleton] at h₁ h₂
  omega

theorem matched_next_iff (hr : s.Rep) (h : s.Matched) (op : Op) :
    (s.next op).Matched ↔ s.Clear op := by
  obtain ⟨⟨xs, hx, hxs⟩, ys, hy⟩ := hr
  obtain ⟨gs, ps, hs⟩ := h.split hx hy
  cases op with
  | get id d =>
    simp only [State.Clear, hx.contents_eq]
    cases xs with
    | nil =>
      obtain ⟨hx', hy', ha⟩ := next_get_nil id d hx hy
      refine iff_of_true (State.Split.matched hx' hy' ⟨hs.length, ?_, ?_, ?_, .inl rfl⟩) nofun
      · rw [next_gets_get, hs.gets, List.append_assoc]
      · rw [next_puts_get, hs.puts]
      · rw [ha, hs.answers]
    | cons w xs =>
      obtain ⟨hx', hc, ha⟩ := next_get_cons id d hx
      obtain rfl : ys = [] := hs.one.resolve_left (List.cons_ne_nil w xs)
      have hputs : (s.next (.get id d)).puts = (ps ++ [w]) ++ xs := by
        rw [next_puts_get, hs.puts, List.append_assoc, List.singleton_append]
      have hgets : (s.next (.get id d)).gets = (gs ++ [d]) ++ [] := by
        rw [next_gets_get, hs.gets, List.append_nil, List.append_nil]
      have hzip : List.zipWith delivery (gs ++ [d]) (ps ++ [w]) =
          List.zipWith delivery gs ps ++ [delivery d w] := by
        rw [List.zipWith_append hs.length]
        rfl
      have hlength : (gs ++ [d]).length = (ps ++ [w]).length := by
        simp only [List.length_append, List.length_singleton, hs.length]
      simp only [List.head?_cons, Option.mem_some_iff, forall_eq']
      constructor
      · intro h'
        have hans := h'.answers
        rw [ha, hgets, hputs, zipWith_append_nil hlength (.inr rfl), hzip, hs.answers] at hans
        have hw := List.append_cancel_left hans
        simp only [List.cons.injEq, delivery, Prod.mk.injEq, true_and, and_true] at hw
        -- an item that is not truthy would have to be nil
        by_contra hfalse
        rw [if_neg hfalse] at hw
        have hsome := hxs w (List.mem_cons_self ..)
        rw [← hw] at hsome
        cases hsome
      · intro hw
        refine State.Split.matched hx' (hc ▸ hy) ⟨hlength, hgets, hputs, ?_, .inr rfl⟩
        rw [ha, if_pos hw, hs.answers, hzip]
  | put id v d =>
    constructor
    · intro h'
      by_contra hclear
      exact not_matched_of_lost h hclear h'
    · rintro ⟨hl, hv⟩
      cases ys with
      | nil =>
        have hv := hv (hy.isEmpty_iff.mpr rfl)
        obtain ⟨hx', hc, ha⟩ := next_put_nil id d hl hx hy (toOption_eq hv)
        refine State.Split.matched hx' (hc ▸ hy) ⟨hs.length, ?_, ?_, ?_, .inr rfl⟩
        · rw [next_gets_put, hs.gets]
        · rw [next_puts_put, hs.puts, List.append_assoc]
        · rw [ha, hs.answers]
      | cons d' ys =>
        obtain ⟨hd, hy', ha⟩ := next_put_cons id v d hl hy
        obtain rfl : xs = [] := hs.one.resolve_right (List.cons_ne_nil d' ys)
        suffices hsplit : (s.next (.put id v d)).Split [] ys (gs ++ [d']) (ps ++ [v]) from
          hsplit.matched (hd ▸ hx) hy'
        refine ⟨?_, ?_, ?_, ?_, .inl rfl⟩
        · simp only [List.length_append, List.length_singleton, hs.length]
        · rw [next_gets_put, hs.gets, List.append_assoc, List.singleton_append]
        · rw [next_puts_put, hs.puts, List.append_nil, List.append_nil]
        · rw [ha, hs.answers, List.zipWith_append hs.length]
          rfl

-- ---------------------------------------------------------------------------
-- Any requests
-- ---------------------------------------------------------------------------

theorem init_matched (logger : Bool) : (State.init logger).Matched where
  one := .inl rfl
  answers := rfl
  data := rfl
  customers := rfl

theorem init_rep (logger : Bool) : (State.init logger).Rep :=
  ⟨⟨[], Deque.holds_new, nofun⟩, [], Deque.holds_new⟩

/-- Over any requests of any clients: items and getters are matched after each of
them exactly when each is made in a state that is clear for it. -/
theorem queue_matched_iff (logger : Bool) (ops : List Op) :
    (∀ t ∈ turns State.next (.init logger) ops, (t.1.next t.2).Matched) ↔
      ∀ t ∈ turns State.next (.init logger) ops, t.1.Clear t.2 :=
  forall_turns_iff (I := fun s => s.Rep ∧ s.Matched) (g := fun s op => (s.next op).Matched)
    (o := State.Clear) (fun _ op h => matched_next_iff h.1 h.2 op) (fun _ op h hm => ⟨h.1.next op, hm⟩) ops
    ⟨init_rep logger, init_matched logger⟩

/-- `queue_server` has no `_logger`: its `put` raises, and the item is gone. -/
theorem put_loses_item :
    ¬ ∀ ops : List Op, ∀ t ∈ turns State.next (.init false) ops, (t.1.next t.2).Matched := by
  intro h
  have hclear : ∀ op, (State.init false).Clear op := fun op =>
    (matched_next_iff (init_rep false) (init_matched false) op).mp
      (h [op] (.init false, op) (List.mem_singleton_self _))
  obtain ⟨hlogger, -⟩ := hclear (.put .nil (.number 5) ⟨⟨"h", 1, 130⟩, ⟨7, RPC_CORRID⟩⟩)
  exact Bool.false_ne_true hlogger

end GalaLua.Frameworks.Queue
