import Sabot.Net.Request

/-! The table of registered calls and its packed search. Name length and parameter count of a
call share one byte, and eight of these bytes are examined at a time.
-/

namespace Sabot.Actions

open Sabot.Net (Request)

/-- The maximum number of actions that can be registered. -/
def actionsMaximum : Nat := 16

/-- The maximum number of bytes for an action method name. -/
def actionsMethodMaximum : Nat := 30

/-- A call to be registered. The name has no terminator. -/
structure Call (F : Type) where
  method : List UInt8
  parameterCount : UInt8
  function : F

/-- The calls that have been registered: function pointers, packed attributes, and the names in
one array with a fixed stride.
-/
structure RegisteredCalls (F : Type) where
  functions : Nat → Option F
  methodsAttr : Nat → UInt8
  methods : Nat → UInt8

variable {F : Type}

/-- The zero-initialised table. -/
def RegisteredCalls.empty : RegisteredCalls F where
  functions _ := none
  methodsAttr _ := 0
  methods _ := 0

-----------------------------------------------------------------------------------------
-- Registration
-----------------------------------------------------------------------------------------

/-- The first slot from `id` on whose name is empty, with `count` slots left to try. -/
def freeSlot (table : RegisteredCalls F) : (count id : Nat) → Nat
  | 0, id => id
  | count + 1, id =>
      if table.methods (id * actionsMethodMaximum) != 0 then freeSlot table count (id + 1) else id

/-- `memcpy` into an array. -/
def copyBytes (memory : Nat → UInt8) (start : Nat) (bytes : List UInt8) : Nat → UInt8 :=
  fun address =>
    if start ≤ address ∧ address < start + bytes.length then bytes.getD (address - start) 0
    else memory address

/-- The packed attributes of a call. -/
def Call.attr (item : Call F) : UInt8 :=
  UInt8.ofNat (item.method.length + item.parameterCount.toNat <<< 5)

/-- Register a call with the container. -/
def registerCall (table : RegisteredCalls F) (item : Call F)
    : Except Exn (RegisteredCalls F) :=
  let id := freeSlot table actionsMaximum 0
  if id ≥ actionsMaximum then .error (.logicError "array bounds exceeded")
  else if item.method.length = 0 then .error (.logicError "zero length")
  else if item.method.length > actionsMethodMaximum then
    .error (.logicError "array bounds exceeded")
  else
    .ok {
      functions := Function.update table.functions id (some item.function)
      methodsAttr := Function.update table.methodsAttr id item.attr
      methods := copyBytes table.methods (id * actionsMethodMaximum) item.method
    }

-----------------------------------------------------------------------------------------
-- Search
-----------------------------------------------------------------------------------------

/-- How a part of the search ends. -/
inductive Verdict (F : Type) where
  | found (function : Option F)
  | notFound
  | unfinished

/-- `memcmp(request.method(), &methods[offset], size) == 0`. -/
def sameBytes (table : RegisteredCalls F) (request : Request) (offset size : Nat) : Bool :=
  (List.range size).all (fun k =>
    (request.method ++ [0]).getD k 0 == table.methods (offset + k))

/-- The attributes of eight calls from `i` on, as one little-endian word. -/
def attrWord (table : RegisteredCalls F) (i : Nat) : Nat :=
  Nat.ofDigits 256 ((List.range 8).map (fun k => (table.methodsAttr (i + k)).toNat))

/-- The inner loop over the eight calls from `i` on, with `count` of them left from `j`. -/
def scanGroup (table : RegisteredCalls F) (request : Request) (i : Nat)
    : (count j : Nat) → Verdict F
  | 0, _ => .unfinished
  | count + 1, j =>
      if attrWord table i >>> (j * 8) = 0 then .notFound
      else if (attrWord table i >>> (j * 8)) &&& 0xFF = request.methodAttr.toNat
          && sameBytes table request ((i + j) * actionsMethodMaximum)
            (request.methodAttr.toNat &&& 0x1F) then
        .found (table.functions (i + j))
      else scanGroup table request i count (j + 1)

/-- The outer loop, with `groups` groups of eight left from `i`. -/
def scanTable (table : RegisteredCalls F) (request : Request) : (groups i : Nat) → Verdict F
  | 0, _ => .notFound
  | groups + 1, i =>
      match scanGroup table request i 8 0 with
      | .unfinished => scanTable table request groups (i + 8)
      | verdict => verdict

/-- The function that a request is passed to. -/
def findCall (table : RegisteredCalls F) (request : Request) : Except Stop F :=
  match scanTable table request (actionsMaximum / 8) 0 with
  | .found (some function) => .ok function
  | .found none => .error .undefined
  | _ => .error (.thrown (.runtimeError "type not found by name"))

-----------------------------------------------------------------------------------------
-- Tables built by registration
-----------------------------------------------------------------------------------------

/-- A name of 1 to 30 bytes that does not start with a zero. -/
structure Call.Named (item : Call F) : Prop where
  nonempty : item.method ≠ []
  short : item.method.length ≤ 30
  first : item.method.head? ≠ some 0

/-- What the registrars pass: a name of 1 to 30 bytes that does not start with a zero, and at most
seven parameters.
-/
structure Call.Valid (item : Call F) : Prop extends item.Named where
  few : item.parameterCount.toNat ≤ 7

/-- Register a list of calls in order. -/
def registerCalls (calls : List (Call F)) : Except Exn (RegisteredCalls F) :=
  calls.foldlM registerCall RegisteredCalls.empty

/-- The table stores named calls in its first slots, whatever their parameter counts. -/
structure Stored (table : RegisteredCalls F) (calls : List (Call F)) : Prop where
  few : calls.length ≤ 16
  named : ∀ item ∈ calls, item.Named
  functions : ∀ k (below : k < calls.length), table.functions k = some calls[k].function
  attrs : ∀ k, table.methodsAttr k = (calls[k]?.map Call.attr).getD 0
  names : ∀ k (below : k < calls.length), ∀ b < calls[k].method.length,
    table.methods (k * 30 + b) = calls[k].method.getD b 0
  free : ∀ address, calls.length * 30 ≤ address → table.methods address = 0

/-- The calls that the table stores are those that the registrars pass. -/
structure Registered (table : RegisteredCalls F) (calls : List (Call F)) : Prop
    extends Stored table calls where
  valid : ∀ item ∈ calls, item.Valid

theorem stored_empty : Stored (RegisteredCalls.empty : RegisteredCalls F) [] where
  few := Nat.zero_le _
  named _ member := absurd member List.not_mem_nil
  functions k below := absurd below (Nat.not_lt_zero k)
  attrs _ := rfl
  names k below := absurd below (Nat.not_lt_zero k)
  free _ _ := rfl

theorem Call.Named.length_pos {item : Call F} (named : item.Named) : 0 < item.method.length :=
  List.length_pos_iff.mpr named.nonempty

theorem Call.Named.first_ne {item : Call F} (named : item.Named) : item.method.getD 0 0 ≠ 0 := by
  have first := named.first
  cases name : item.method with
  | nil => exact absurd name named.nonempty
  | cons c rest => simpa [name] using first

/-- The low five bits of the attributes are the size of the name, whatever else was cut off. -/
theorem Call.Named.attr_size {item : Call F} (named : item.Named)
    : item.attr.toNat % 32 = item.method.length := by
  have short := named.short
  have byte : item.attr.toNat = (item.method.length + item.parameterCount.toNat * 2 ^ 5) % 256 := by
    rw [Call.attr, Nat.shiftLeft_eq]
    exact UInt8.toNat_ofNat
  omega

section Stored

variable {table : RegisteredCalls F} {calls : List (Call F)} (stored : Stored table calls)
include stored

/-- The first free slot is the one behind the registered calls. -/
theorem freeSlot_eq (count id : Nat) (low : id ≤ calls.length) (high : calls.length ≤ id + count)
    : freeSlot table count id = calls.length := by
  induction count generalizing id with
  | zero => exact le_antisymm low high
  | succ count ih =>
      rw [freeSlot]
      by_cases below : id < calls.length
      · have named := stored.named _ (List.getElem_mem below)
        have name := stored.names id below 0 named.length_pos
        have used : table.methods (id * actionsMethodMaximum) ≠ 0 := by
          rw [actionsMethodMaximum, ← Nat.add_zero (id * 30), name]
          exact named.first_ne
        rw [if_pos (by simpa using used)]
        exact ih (id + 1) below (by omega)
      · have here : id = calls.length := by omega
        have free := stored.free (id * actionsMethodMaximum) (by rw [here]; rfl)
        rw [if_neg (by simp [free]), here]

/-- A named call can be registered while there is a slot left. -/
theorem registerCall_succeeds {item : Call F} (named : item.Named) (room : calls.length < 16)
    : ∃ next, registerCall table item = .ok next := by
  have slot := freeSlot_eq stored actionsMaximum 0 (Nat.zero_le _)
    (by rw [Nat.zero_add]; exact stored.few)
  have positive := named.length_pos
  have short := named.short
  rw [registerCall, slot, if_neg (by rw [actionsMaximum]; omega), if_neg (by omega),
    if_neg (by rw [actionsMethodMaximum]; omega)]
  exact ⟨_, rfl⟩

/-- Registering a named call stores it in the next slot. -/
theorem registerCall_stored {item : Call F} (named : item.Named)
    {next : RegisteredCalls F} (ran : registerCall table item = .ok next)
    : Stored next (calls ++ [item]) := by
  have slot := freeSlot_eq stored actionsMaximum 0 (Nat.zero_le _)
    (by rw [Nat.zero_add]; exact stored.few)
  have room : calls.length < 16 := by
    by_contra full
    have past : calls.length ≥ actionsMaximum := not_lt.mp full
    rw [registerCall, slot, if_pos past] at ran
    cases ran
  have positive := named.length_pos
  have short := named.short
  have unfolded : next = {
      functions := Function.update table.functions calls.length (some item.function)
      methodsAttr := Function.update table.methodsAttr calls.length item.attr
      methods := copyBytes table.methods (calls.length * actionsMethodMaximum) item.method } := by
    rw [registerCall, slot, if_neg (by rw [actionsMaximum]; omega), if_neg (by omega),
      if_neg (by rw [actionsMethodMaximum]; omega)] at ran
    exact (Except.ok.inj ran).symm
  subst unfolded
  refine {
    few := by rw [List.length_append]; simp; omega
    named := ?_
    functions := ?_
    attrs := ?_
    names := ?_
    free := ?_
  }
  · intro other member
    rcases List.mem_append.mp member with old | new
    · exact stored.named other old
    · rw [List.mem_singleton.mp new]
      exact named
  · intro k below
    by_cases old : k < calls.length
    · simp only [Function.update_of_ne (show k ≠ calls.length by omega),
        List.getElem_append_left old, stored.functions k old]
    · obtain rfl : k = calls.length := by simp at below; omega
      simp
  · intro k
    by_cases here : k = calls.length
    · subst here
      simp
    · simp only [Function.update_of_ne here, stored.attrs k]
      by_cases old : k < calls.length
      · rw [List.getElem?_append_left old]
      · rw [List.getElem?_append_right (by omega), List.getElem?_eq_none (by omega),
          List.getElem?_eq_none (by simp; omega)]
  · intro k below b inside
    by_cases old : k < calls.length
    · simp only [List.getElem_append_left old] at inside ⊢
      have shortK := (stored.named _ (List.getElem_mem old)).short
      rw [copyBytes, if_neg (by rw [actionsMethodMaximum]; omega), stored.names k old b inside]
    · obtain rfl : k = calls.length := by simp at below; omega
      simp only [List.getElem_append_right le_rfl, Nat.sub_self, List.getElem_cons_zero]
        at inside ⊢
      rw [copyBytes, if_pos (by rw [actionsMethodMaximum]; omega), actionsMethodMaximum,
        Nat.add_sub_cancel_left]
  · intro address past
    simp only [List.length_append, List.length_singleton] at past
    have behind : ¬(calls.length * actionsMethodMaximum ≤ address
        ∧ address < calls.length * actionsMethodMaximum + item.method.length) := by
      rw [actionsMethodMaximum]
      omega
    exact (if_neg behind).trans (stored.free address (by omega))

end Stored

/-- A table built by registration stores the calls in order. -/
theorem registerCalls_stored {calls : List (Call F)} (named : ∀ item ∈ calls, item.Named)
    {table : RegisteredCalls F} (built : registerCalls calls = .ok table)
    : Stored table calls := by
  have loop (rest done : List (Call F)) (table table' : RegisteredCalls F)
      (stored : Stored table done) (named : ∀ item ∈ rest, item.Named)
      (built : rest.foldlM registerCall table = .ok table')
      : Stored table' (done ++ rest) := by
    induction rest generalizing done table with
    | nil =>
        obtain rfl : table = table' := Except.ok.inj built
        simpa using stored
    | cons item rest ih =>
        rw [List.foldlM_cons] at built
        cases step : registerCall table item with
        | error e => simp [step, bind, Except.bind] at built
        | ok next =>
            simp only [step, bind, Except.bind] at built
            have more := registerCall_stored stored (named item List.mem_cons_self) step
            have whole := ih (done ++ [item]) next more
              (fun item member => named item (List.mem_cons_of_mem _ member)) built
            rwa [List.append_assoc] at whole
  simpa using loop calls [] _ table stored_empty named built

theorem registerCalls_registered {calls : List (Call F)} (valid : ∀ item ∈ calls, item.Valid)
    {table : RegisteredCalls F} (built : registerCalls calls = .ok table)
    : Registered table calls :=
  ⟨registerCalls_stored (fun item member => (valid item member).toNamed) built, valid⟩

/-- Up to 16 named calls can be registered. -/
theorem registerCalls_succeeds {calls : List (Call F)} (named : ∀ item ∈ calls, item.Named)
    (few : calls.length ≤ 16)
    : ∃ table, registerCalls calls = .ok table := by
  induction calls using List.reverseRecOn with
  | nil => exact ⟨_, rfl⟩
  | append_singleton calls item ih =>
      rw [List.length_append, List.length_singleton] at few
      obtain ⟨table, built⟩ :=
        ih (fun item member => named item (List.mem_append_left _ member)) (by omega)
      have before := registerCalls_stored
        (fun item member => named item (List.mem_append_left _ member)) built
      obtain ⟨next, stored⟩ := registerCall_succeeds before (named item (by simp)) (by omega)
      refine ⟨next, ?_⟩
      rw [registerCalls] at built ⊢
      rw [List.foldlM_append, built]
      simp [bind, Except.bind, stored, pure, Except.pure]

-----------------------------------------------------------------------------------------
-- What the packed search finds
-----------------------------------------------------------------------------------------

/-- The condition under which the search takes a call: equal packed attributes, and a name equal
to the first bytes of the request's name, as many as its low five attribute bits say.
-/
def Aliases (request : Request) (item : Call F) : Prop :=
  item.attr = request.methodAttr
    ∧ item.method = request.method.take (request.methodAttr.toNat % 32)

instance (request : Request) (item : Call F) : Decidable (Aliases request item) :=
  inferInstanceAs (Decidable (_ ∧ _))

/-- The attributes of a valid call keep size and count apart. -/
theorem Call.Valid.attr_toNat {item : Call F} (valid : item.Valid)
    : item.attr.toNat = item.method.length + item.parameterCount.toNat * 32 := by
  have short := valid.short
  have few := valid.few
  rw [Call.attr, Nat.shiftLeft_eq]
  exact UInt8.toNat_ofNat_of_lt' (by simp [UInt8.size]; omega)

theorem methodAttr_toNat (request : Request)
    : request.methodAttr.toNat = (request.methodSize + request.parameterCount * 32) % 256 := by
  rw [Request.methodAttr, Nat.shiftLeft_eq]
  exact UInt8.toNat_ofNat

/-- Size and count of an alias in numbers. -/
theorem Call.Valid.attr_eq_iff {item : Call F} (valid : item.Valid) (request : Request)
    : item.attr = request.methodAttr
      ↔ item.method.length = request.methodSize % 32
        ∧ item.parameterCount.toNat
          = (request.parameterCount + request.methodSize / 32) % 8 := by
  have short := valid.short
  have few := valid.few
  rw [← UInt8.toNat_inj, valid.attr_toNat, methodAttr_toNat]
  omega

/-- Shifting the packed word drops attributes. -/
theorem attrWord_shiftRight (table : RegisteredCalls F) (i k : Nat)
    : attrWord table i >>> (k * 8)
      = Nat.ofDigits 256
          (((List.range 8).map (fun k => (table.methodsAttr (i + k)).toNat)).drop k) := by
  have bytes : ∀ b ∈ (List.range 8).map (fun k => (table.methodsAttr (i + k)).toNat), b < 256 := by
    intro b member
    obtain ⟨k, _, rfl⟩ := List.mem_map.mp member
    exact (table.methodsAttr (i + k)).toNat_lt
  rw [Nat.shiftRight_eq_div_pow, mul_comm, pow_mul,
    ← Nat.ofDigits_div_pow_eq_ofDigits_drop k (by decide) _ bytes]
  rfl

/-- The low byte of the shifted word is the attribute of its call. -/
theorem attrWord_shift_succ (table : RegisteredCalls F) (i : Nat) {j : Nat} (below : j < 8)
    : attrWord table i >>> (j * 8)
      = (table.methodsAttr (i + j)).toNat + 256 * (attrWord table i >>> ((j + 1) * 8)) := by
  have inside : j < ((List.range 8).map (fun k => (table.methodsAttr (i + k)).toNat)).length := by
    simpa using below
  rw [attrWord_shiftRight, attrWord_shiftRight, List.drop_eq_getElem_cons inside,
    Nat.ofDigits_cons]
  simp

/-- The condition under which the search takes a slot: its attributes are those of the request, and
so are the first bytes of its name, as many as the low five bits say.
-/
def Matches (table : RegisteredCalls F) (request : Request) (id : Nat) : Prop :=
  table.methodsAttr id = request.methodAttr
    ∧ sameBytes table request (id * actionsMethodMaximum) (request.methodAttr.toNat &&& 0x1F) = true

instance (table : RegisteredCalls F) (request : Request) (id : Nat)
    : Decidable (Matches table request id) :=
  inferInstanceAs (Decidable (_ ∧ _))

/-- The two conditions of the inner loop, on the byte of the word that belongs to the slot. -/
theorem slot_iff (table : RegisteredCalls F) (request : Request) (i : Nat) {j : Nat} (below : j < 8)
    : ((attrWord table i >>> (j * 8)) &&& 0xFF = request.methodAttr.toNat
        && sameBytes table request ((i + j) * actionsMethodMaximum)
          (request.methodAttr.toNat &&& 0x1F)) = true
      ↔ Matches table request (i + j) := by
  have byte : (attrWord table i >>> (j * 8)) &&& 0xFF = (table.methodsAttr (i + j)).toNat := by
    have small := (table.methodsAttr (i + j)).toNat_lt
    rw [show (0xFF : Nat) = 2 ^ 8 - 1 from rfl, Nat.and_two_pow_sub_one_eq_mod,
      attrWord_shift_succ table i below]
    omega
  rw [byte, Bool.and_eq_true, decide_eq_true_eq, UInt8.toNat_inj]
  rfl

/-- Search the first slots one by one. -/
def linearSearch (table : RegisteredCalls F) (request : Request) (registered : Nat) : Option Nat :=
  (List.range registered).find? (fun id => Matches table request id)

section Search

variable {table : RegisteredCalls F} {calls : List (Call F)} (stored : Stored table calls)
  (request : Request)
include stored

omit request in
/-- The shifted word is zero exactly from the end of the registered calls on: no registered call
has zero attributes, and none stands behind a free slot.
-/
theorem attrWord_shift_eq_zero_iff (i : Nat) {j : Nat} (below : j < 8)
    : attrWord table i >>> (j * 8) = 0 ↔ calls.length ≤ i + j := by
  constructor
  · intro zero
    by_contra occupied
    have inside : i + j < calls.length := not_le.mp occupied
    have named := stored.named _ (List.getElem_mem inside)
    have size := named.attr_size
    have positive := named.length_pos
    rw [attrWord_shift_succ table i below, stored.attrs, List.getElem?_eq_getElem inside] at zero
    simp only [Option.map_some, Option.getD_some] at zero
    omega
  · intro past
    have zeros (digits : List Nat) (zero : ∀ b ∈ digits, b = 0) : Nat.ofDigits 256 digits = 0 := by
      induction digits with
      | nil => rfl
      | cons b rest ih =>
          rw [Nat.ofDigits_cons, zero b List.mem_cons_self,
            ih (fun b member => zero b (List.mem_cons_of_mem _ member))]
    rw [attrWord_shiftRight]
    apply zeros
    intro b member
    obtain ⟨k, inside, rfl⟩ := List.getElem_of_mem member
    rw [List.getElem_drop, List.getElem_map, List.getElem_range, stored.attrs,
      List.getElem?_eq_none (by omega)]
    rfl

/-- The inner loop finds the first match of its group, and reports the end of the calls. -/
theorem scanGroup_eq (i count j : Nat) (group : j + count = 8)
    (reached : count = 0 → i + j ≤ calls.length)
    : scanGroup table request i count j
      = match (((List.range calls.length).drop (i + j)).take count).find?
            (fun id => Matches table request id) with
        | some id => .found (table.functions id)
        | none => if i + 8 ≤ calls.length then .unfinished else .notFound := by
  induction count generalizing j with
  | zero =>
      have whole : i + 8 ≤ calls.length := by have := reached rfl; omega
      simp [scanGroup, whole]
  | succ count ih =>
      have zero := attrWord_shift_eq_zero_iff stored i (show j < 8 by omega)
      by_cases occupied : i + j < calls.length
      · have taken := slot_iff table request i (show j < 8 by omega)
        have inside : i + j < (List.range calls.length).length := by simpa using occupied
        rw [scanGroup, if_neg (fun free => absurd (zero.mp free) (by omega)),
          List.drop_eq_getElem_cons inside, List.take_succ_cons, List.find?_cons,
          List.getElem_range]
        by_cases here : Matches table request (i + j)
        · rw [if_pos (taken.mpr here)]
          simp [here]
        · rw [if_neg (fun condition => here (taken.mp condition)), ih (j + 1) (by omega) (by omega)]
          simp [here, Nat.add_assoc]
      · have none : (List.range calls.length).drop (i + j) = [] :=
          List.drop_eq_nil_of_le (by rw [List.length_range]; omega)
        have short : ¬i + 8 ≤ calls.length := by omega
        simp [scanGroup, zero.mpr (not_lt.mp occupied), none, short]

/-- The outer loop finds the first match. -/
theorem scanTable_eq (groups i : Nat) (whole : i + 8 * groups = 16)
    : scanTable table request groups i
      = match ((List.range calls.length).drop i).find? (fun id => Matches table request id) with
        | some id => .found (table.functions id)
        | none => .notFound := by
  have behind (i : Nat) (past : calls.length ≤ i) : (List.range calls.length).drop i = [] :=
    List.drop_eq_nil_of_le (by rw [List.length_range]; exact past)
  induction groups generalizing i with
  | zero => simp [scanTable, behind i (by have := stored.few; omega)]
  | succ groups ih =>
      have split := List.take_append_drop 8 ((List.range calls.length).drop i)
      rw [List.drop_drop] at split
      have search : ((List.range calls.length).drop i).find? (fun id => Matches table request id)
          = ((((List.range calls.length).drop i).take 8).find?
              (fun id => Matches table request id)).or
              (((List.range calls.length).drop (i + 8)).find?
                (fun id => Matches table request id)) := by
        rw [← List.find?_append, split]
      rw [scanTable, scanGroup_eq stored request i 8 0 rfl (by omega), Nat.add_zero, search]
      cases first : (((List.range calls.length).drop i).take 8).find?
          (fun id => Matches table request id) with
      | some id => rfl
      | none =>
          by_cases more : i + 8 ≤ calls.length
          · simp [more, ih (i + 8) (by omega)]
          · simp [more, behind (i + 8) (by omega)]

/-- The packed search returns what the linear search over the registered slots finds. -/
theorem findCall_eq_linearSearch
    : findCall table request
      = match linearSearch table request calls.length with
        | some id =>
            match table.functions id with
            | some function => .ok function
            | none => .error .undefined
        | none => .error (.thrown (.runtimeError "type not found by name")) := by
  rw [findCall, scanTable_eq stored request _ 0 rfl, List.drop_zero, linearSearch]
  cases (List.range calls.length).find? (fun id => Matches table request id) with
  | none => rfl
  | some id =>
      dsimp only
      cases table.functions id <;> rfl

/-- The name comparison of an occupied slot. -/
theorem sameBytes_iff {k : Nat} (below : k < calls.length) {size : Nat}
    (sizeEq : calls[k].method.length = size) (long : size ≤ request.method.length)
    : sameBytes table request (k * actionsMethodMaximum) size = true
      ↔ calls[k].method = request.method.take size := by
  rw [sameBytes, List.all_eq_true]
  have kept (b : Nat) (inside : b < size)
      : table.methods (k * actionsMethodMaximum + b) = calls[k].method.getD b 0 :=
    stored.names k below b (by omega)
  have sent (b : Nat) (inside : b < size)
      : (request.method ++ [0]).getD b 0 = (request.method.take size).getD b 0 := by
    have old : b < request.method.length := by omega
    simp [List.getD_eq_getElem?_getD, List.getElem?_append_left old, inside]
  constructor
  · intro same
    apply List.ext_getElem
    · rw [List.length_take]
      omega
    · intro b here there
      have equal := same b (List.mem_range.mpr (by omega))
      rw [kept b (by omega), sent b (by omega), beq_iff_eq, List.getD_eq_getElem _ _ there,
        List.getD_eq_getElem _ _ here] at equal
      exact equal.symm
  · intro same b member
    have inside := List.mem_range.mp member
    rw [kept b inside, sent b inside, same, beq_iff_eq]

/-- In a registered slot the conditions of the search say that its call is an alias. -/
theorem matches_iff_aliases {k : Nat} (below : k < calls.length)
    : Matches table request k ↔ Aliases request calls[k] := by
  have attr : table.methodsAttr k = calls[k].attr := by
    rw [stored.attrs, List.getElem?_eq_getElem below]
    rfl
  have low : request.methodAttr.toNat &&& 0x1F = request.methodAttr.toNat % 32 := by
    rw [show (0x1F : Nat) = 2 ^ 5 - 1 from rfl, Nat.and_two_pow_sub_one_eq_mod]
  have size := (stored.named _ (List.getElem_mem below)).attr_size
  have attrNat := methodAttr_toNat request
  rw [Matches, Aliases, attr, low]
  refine and_congr_right (fun attrEq => ?_)
  rw [attrEq] at size
  have long : request.methodSize = request.method.length := rfl
  exact sameBytes_iff stored request below size.symm (by omega)

/-- The packed search returns the function of the first alias of the request. -/
theorem findCall_eq
    : findCall table request
      = match calls.find? (fun item => Aliases request item) with
        | some item => .ok item.function
        | none => .error (.thrown (.runtimeError "type not found by name")) := by
  rw [findCall_eq_linearSearch stored request]
  cases found : linearSearch table request calls.length with
  | none =>
      have missing : calls.find? (fun item => Aliases request item) = none := by
        rw [linearSearch, List.find?_eq_none] at found
        rw [List.find?_eq_none]
        intro item member
        obtain ⟨k, below, rfl⟩ := List.getElem_of_mem member
        have slot := found k (List.mem_range.mpr below)
        simpa [matches_iff_aliases stored request below] using slot
      rw [missing]
  | some k =>
      rw [linearSearch, List.find?_eq_some_iff_getElem] at found
      obtain ⟨here, position, below, same, before⟩ := found
      rw [List.length_range] at below
      obtain rfl : position = k := by simpa using same
      have first : calls.find? (fun item => Aliases request item) = some calls[position] := by
        rw [List.find?_eq_some_iff_getElem]
        refine ⟨?_, position, below, rfl, ?_⟩
        · simpa [matches_iff_aliases stored request below] using here
        · intro j earlier
          have slot := before j earlier
          have inside : j < calls.length := by omega
          simpa [matches_iff_aliases stored request inside] using slot
      simp only [first, stored.functions position below]

end Search

-----------------------------------------------------------------------------------------
-- Exact dispatch
-----------------------------------------------------------------------------------------

/-- The call registered with exactly the name and the number of parameters of the request. -/
def exactCall (calls : List (Call F)) (request : Request) : Option (Call F) :=
  calls.find? (fun item =>
    item.method = request.method ∧ item.parameterCount.toNat = request.parameterCount)

/-- The function of the exact call is found, and without one the search throws. -/
def DispatchesExactly (table : RegisteredCalls F) (calls : List (Call F)) (request : Request)
    : Prop :=
  findCall table request
    = match exactCall calls request with
      | some item => .ok item.function
      | none => .error (.thrown (.runtimeError "type not found by name"))

/-- A name within 31 bytes and at most seven parameters are packed without loss. -/
theorem aliases_iff_exact {item : Call F} (valid : item.Valid) {request : Request}
    (short : request.methodSize ≤ 31) (few : request.parameterCount ≤ 7)
    : Aliases request item
      ↔ item.method = request.method ∧ item.parameterCount.toNat = request.parameterCount := by
  have attrNat := methodAttr_toNat request
  have size : request.method.length = request.methodSize := rfl
  rw [Aliases, valid.attr_eq_iff]
  have low : request.methodAttr.toNat % 32 = request.method.length := by omega
  rw [low, List.take_length]
  constructor
  · rintro ⟨⟨_, count⟩, name⟩
    exact ⟨name, by omega⟩
  · rintro ⟨name, count⟩
    exact ⟨⟨by rw [name]; omega, by omega⟩, name⟩

/-- Dispatch is exact for a request exactly when its name has at most 31 bytes and it has at most
seven parameters, or else when no call has the truncated name together with the number of
parameters that the overflow of the packed byte leaves.
-/
theorem dispatchesExactly_iff {calls : List (Call F)} (valid : ∀ item ∈ calls, item.Valid)
    {table : RegisteredCalls F} (built : registerCalls calls = .ok table) (request : Request)
    : DispatchesExactly table calls request
      ↔ (request.methodSize ≤ 31 ∧ request.parameterCount ≤ 7)
        ∨ ∀ item ∈ calls,
            ¬(item.method = request.method.take (request.methodSize % 32)
              ∧ item.parameterCount.toNat
                = (request.parameterCount + request.methodSize / 32) % 8) := by
  have registered := registerCalls_registered valid built
  have size : request.method.length = request.methodSize := rfl
  rw [DispatchesExactly, findCall_eq registered.toStored request, exactCall]
  by_cases packed : request.methodSize ≤ 31 ∧ request.parameterCount ≤ 7
  · have same : calls.find? (fun item => Aliases request item)
        = calls.find? (fun item => item.method = request.method
            ∧ item.parameterCount.toNat = request.parameterCount) := by
      refine List.find?_congr (fun item member => ?_)
      simp only [aliases_iff_exact (valid item member) packed.1 packed.2]
    simp [same, packed]
  · -- No valid call is exact, so only a miss is right.
    have none : calls.find? (fun item => item.method = request.method
        ∧ item.parameterCount.toNat = request.parameterCount) = none := by
      rw [List.find?_eq_none]
      intro item member
      have short := (valid item member).short
      have few := (valid item member).few
      simp only [decide_eq_true_eq]
      rintro ⟨name, count⟩
      rw [name] at short
      omega
    have truncated (item : Call F) (member : item ∈ calls)
        : Aliases request item
          ↔ item.method = request.method.take (request.methodSize % 32)
            ∧ item.parameterCount.toNat
              = (request.parameterCount + request.methodSize / 32) % 8 := by
      have attrNat := methodAttr_toNat request
      have low : request.methodAttr.toNat % 32 = request.methodSize % 32 := by omega
      rw [Aliases, (valid item member).attr_eq_iff, low]
      constructor
      · rintro ⟨⟨_, count⟩, name⟩
        exact ⟨name, count⟩
      · rintro ⟨name, count⟩
        refine ⟨⟨?_, count⟩, name⟩
        rw [name, List.length_take]
        omega
    rw [none]
    cases found : calls.find? (fun item => Aliases request item) with
    | none =>
        rw [List.find?_eq_none] at found
        refine iff_of_true rfl (Or.inr ?_)
        intro item member condition
        exact found item member (by simpa using (truncated item member).mpr condition)
    | some item =>
        have member := List.mem_of_find?_eq_some found
        have condition := List.find?_some found
        refine iff_of_false (fun same => by cases same) ?_
        rintro (short | missing)
        · exact packed short
        · exact missing item member ((truncated item member).mp (by simpa using condition))

-----------------------------------------------------------------------------------------
-- The registered actions
-----------------------------------------------------------------------------------------

/-- The processing functions, one for each namespace of actions. -/
inductive Action where
  | getUniformInteger
  | getUniformReal
  | getWeightedInteger
  | createKernel
  | deleteKernel
  | compileMacro
  | createSystem
  | deleteSystem
  | createState
  | deleteState
  | modifyState
  | measureState
  | computeResult
deriving DecidableEq, Repr

def bytes (name : String) : List UInt8 := name.toList.map (fun c => UInt8.ofNat c.toNat)

/-- The call that an action registers. -/
def Action.call (action : Action) : Call Action :=
  match action with
  | .getUniformInteger => ⟨bytes "get_uniform_integer", 3, action⟩
  | .getUniformReal => ⟨bytes "get_uniform_real", 3, action⟩
  | .getWeightedInteger => ⟨bytes "get_weighted_integer", 3, action⟩
  | .createKernel => ⟨bytes "create_kernel", 0, action⟩
  | .deleteKernel => ⟨bytes "delete_kernel", 1, action⟩
  | .compileMacro => ⟨bytes "compile_macro", 4, action⟩
  | .createSystem => ⟨bytes "create_system", 1, action⟩
  | .deleteSystem => ⟨bytes "delete_system", 1, action⟩
  | .createState => ⟨bytes "create_state", 4, action⟩
  | .deleteState => ⟨bytes "delete_state", 2, action⟩
  | .modifyState => ⟨bytes "modify_state", 5, action⟩
  | .measureState => ⟨bytes "measure_state", 5, action⟩
  | .computeResult => ⟨bytes "compute_result", 4, action⟩

/-- The calls in the order in which their registrars are constructed. -/
def calls : List (Call Action) :=
  [.getUniformInteger, .getUniformReal, .getWeightedInteger, .createKernel, .deleteKernel,
    .compileMacro, .createSystem, .deleteSystem, .createState, .deleteState, .modifyState,
    .measureState, .computeResult].map Action.call

theorem calls_valid : ∀ item ∈ calls, item.Valid := by
  have each (action : Action) : action.call.Valid := by
    cases action <;> exact ⟨⟨by decide, by decide, by decide⟩, by decide⟩
  intro item member
  obtain ⟨action, _, rfl⟩ := List.mem_map.mp member
  exact each action

theorem calls_named : ∀ item ∈ calls, item.Named := fun item member => (calls_valid item member).toNamed

/-- No two actions share a name and a number of parameters. -/
theorem calls_distinct
    : calls.Pairwise (fun a b => (a.method, a.parameterCount) ≠ (b.method, b.parameterCount)) := by
  decide

/-- The name `delete_system` with 32 more bytes, and no parameters. -/
def overlongRequest : Request where
  method := bytes "delete_system" ++ List.replicate 32 120
  parameters := []

/-- A misspelt name is not found. -/
theorem dispatchesExactly_iff_misspelt
    : ∃ table, registerCalls calls = .ok table
        ∧ DispatchesExactly table calls ⟨bytes "delete_sistem", []⟩ := by
  obtain ⟨table, built⟩ := registerCalls_succeeds calls_named (by decide)
  exact ⟨table, built, (dispatchesExactly_iff calls_valid built _).mpr (Or.inl (by decide))⟩

/-- The overlong name reaches `delete_system`, which then reads a parameter that is not there. -/
theorem overlong_name_dispatched
    : ¬∀ calls : List (Call Action), (∀ item ∈ calls, item.Valid)
        → calls.Pairwise (fun a b => (a.method, a.parameterCount) ≠ (b.method, b.parameterCount))
        → ∀ table, registerCalls calls = .ok table
        → ∀ request, DispatchesExactly table calls request := by
  intro claimed
  obtain ⟨table, built⟩ := registerCalls_succeeds calls_named (by decide)
  have exact := claimed calls calls_valid calls_distinct table built overlongRequest
  have found : calls.find? (fun item => Aliases overlongRequest item)
      = some Action.deleteSystem.call := by
    rfl
  have missing : exactCall calls overlongRequest = none := by
    rfl
  rw [DispatchesExactly, findCall_eq (registerCalls_stored calls_named built), found,
    missing] at exact
  cases exact

end Sabot.Actions
