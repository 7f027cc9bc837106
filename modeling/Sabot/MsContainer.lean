import Sabot.Failure

/-! `ms_container` as one thread sees it: a map from keys to items, each with its flag. -/

namespace Sabot

/-- A mapped value: the flag that guards an item, and the item. -/
structure Entry (ι : Type) where
  flag : Bool
  item : ι

/-- A `ms_container`. The key generator is used with integral keys only. -/
structure MsContainer (κ ι : Type) where
  entries : Finmap (fun _ : κ => Entry ι)
  keyGenerator : κ

namespace MsContainer

variable {κ ι ρ α : Type} [DecidableEq κ]

/-- The constructor. -/
def new (key : κ) : MsContainer κ ι := ⟨∅, key⟩

def find (c : MsContainer κ ι) (key : κ) : Option (Entry ι) := c.entries.lookup key

def store (c : MsContainer κ ι) (key : κ) (entry : Entry ι) : MsContainer κ ι :=
  { c with entries := c.entries.insert key entry }

def remove (c : MsContainer κ ι) (key : κ) : MsContainer κ ι :=
  { c with entries := c.entries.erase key }

/-- `std::map::insert`, which keeps an entry that is already there. -/
def emplace (c : MsContainer κ ι) (key : κ) (entry : Entry ι) : MsContainer κ ι :=
  match c.find key with
  | some _ => c
  | none => c.store key entry

/-- Insert an item under a new integral key, which wraps. -/
def insert (item : ι) : Run (MsContainer UInt64 ι) UInt64 := fun c =>
  let key := c.keyGenerator
  (.ok key, { c with keyGenerator := key + 1 }.emplace key ⟨false, item⟩)

/-- Insert what a function constructs. The key is taken first, and is gone if it throws. -/
def insertWith (f : Except Stop ι) : Run (MsContainer UInt64 ι) UInt64 := fun c =>
  let key := c.keyGenerator
  let c := { c with keyGenerator := key + 1 }
  match f with
  | .ok item => (.ok key, c.emplace key ⟨false, item⟩)
  | .error e => (.error e, c)

/-- Insert an item under a given string key, unless the key is there already. -/
def insertAt (key : κ) (item : ι) : Run (MsContainer κ ι) Bool := fun c =>
  (.ok (c.find key).isNone, c.emplace key ⟨false, item⟩)

/-- Erase an item, whose destructor runs. That the key was found is not checked. -/
def erase (destroy : ι → Except Stop Unit) (key : κ) : Run (MsContainer κ ι) Bool := fun c =>
  match c.find key with
  | none => (.error .undefined, c)
  | some entry =>
      match destroy entry.item with
      | .ok _ => (.ok true, c.remove key)
      | .error e => (.error e, c)

def count (c : MsContainer κ ι) (key : κ) : Nat := if (c.find key).isSome then 1 else 0

/-- Run a function on an item while holding its flag. The flag is cleared after the function
has returned, and is not cleared when it throws.
-/
def editItem (key : κ) (f : Run (ι × ρ) α) : Run (MsContainer κ ι × ρ) α := fun (c, r) =>
  match c.find key with
  | none => (.error (.thrown (.invalidArgument "not found")), c, r)
  | some entry =>
      if entry.flag then (.error .blocked, c, r)
      else
        match f (entry.item, r) with
        | (.ok a, item, r) => (.ok a, c.store key ⟨false, item⟩, r)
        | (.error e, item, r) => (.error e, c.store key ⟨true, item⟩, r)

/-- Keys are handed out in order, and none above the generator is in use. Inserting keeps this
until the generator wraps.
-/
def Numbered (c : MsContainer UInt64 ι) : Prop :=
  ∀ key, c.find key ≠ none → key.toNat < c.keyGenerator.toNat

/-- No flag is set. -/
def Free (c : MsContainer κ ι) : Prop := ∀ key entry, c.find key = some entry → entry.flag = false

-----------------------------------------------------------------------------------------
-- Lookups
-----------------------------------------------------------------------------------------

variable (c : MsContainer κ ι) {key other : κ} (entry : Entry ι)

@[simp] theorem find_new (key initial : κ) : (new initial : MsContainer κ ι).find key = none :=
  Finmap.lookup_empty key

@[simp] theorem find_store : (c.store key entry).find key = some entry :=
  Finmap.lookup_insert _

theorem find_store_of_ne (ne : other ≠ key) : (c.store key entry).find other = c.find other :=
  Finmap.lookup_insert_of_ne _ ne

theorem find_store_eq (key other : κ)
    : (c.store key entry).find other = if other = key then some entry else c.find other := by
  split
  · rename_i same
    rw [same, find_store]
  · rename_i ne
    exact find_store_of_ne c entry ne

theorem emplace_of_none (absent : c.find key = none)
    : c.emplace key entry = c.store key entry := by
  simp only [emplace, absent]

theorem emplace_of_some {old : Entry ι} (present : c.find key = some old)
    : c.emplace key entry = c := by
  simp only [emplace, present]

theorem emplace_keyGenerator : (c.emplace key entry).keyGenerator = c.keyGenerator := by
  unfold emplace
  split <;> rfl

theorem find_emplace_of_some {old : Entry ι} (present : c.find other = some old)
    : (c.emplace key entry).find other = some old := by
  cases found : c.find key with
  | some _ => rw [emplace_of_some _ _ found, present]
  | none =>
      have ne : other ≠ key := by
        rintro rfl
        rw [found] at present
        cases present
      rw [emplace_of_none _ _ found, find_store_of_ne _ _ ne, present]

theorem find_emplace_cases {found : Entry ι} (stored : (c.emplace key entry).find other = some found)
    : c.find other = some found ∨ other = key ∧ found = entry := by
  cases present : c.find key with
  | some _ =>
      rw [emplace_of_some _ _ present] at stored
      exact Or.inl stored
  | none =>
      rw [emplace_of_none _ _ present, find_store_eq] at stored
      split at stored
      · rename_i same
        exact Or.inr ⟨same, (Option.some.inj stored).symm⟩
      · exact Or.inl stored

theorem find_emplace_isSome : ((c.emplace key entry).find key).isSome := by
  cases present : c.find key with
  | some _ => rw [emplace_of_some _ _ present, present]; rfl
  | none => rw [emplace_of_none _ _ present, find_store]; rfl

theorem find_remove : (c.remove key).find key = none := Finmap.lookup_erase _ _

theorem find_remove_of_ne (ne : other ≠ key) : (c.remove key).find other = c.find other :=
  Finmap.lookup_erase_ne ne

theorem Numbered.next_unused {c : MsContainer UInt64 ι} (numbered : c.Numbered)
    : c.find c.keyGenerator = none := by
  by_contra used
  exact lt_irrefl _ (numbered _ used)

/-- A numbered container stores the new item under its next key. -/
theorem Numbered.insert {c : MsContainer UInt64 ι} (numbered : c.Numbered) (item : ι)
    : MsContainer.insert item c
      = (.ok c.keyGenerator,
          { c with keyGenerator := c.keyGenerator + 1 }.store c.keyGenerator ⟨false, item⟩) := by
  have unused : { c with keyGenerator := c.keyGenerator + 1 }.find c.keyGenerator = none :=
    numbered.next_unused
  rw [MsContainer.insert, emplace_of_none _ _ unused]

variable {c} {f : Run (ι × ρ) α} {r : ρ}

theorem editItem_absent (absent : c.find key = none)
    : editItem key f (c, r) = (.error (.thrown (.invalidArgument "not found")), c, r) := by
  simp only [editItem, absent]

theorem editItem_blocked {item : ι} (held : c.find key = some ⟨true, item⟩)
    : editItem key f (c, r) = (.error .blocked, c, r) := by
  simp [editItem, held]

theorem editItem_ok {item next : ι} {left : ρ} {a : α} (free : c.find key = some ⟨false, item⟩)
    (ran : f (item, r) = (.ok a, next, left))
    : editItem key f (c, r) = (.ok a, c.store key ⟨false, next⟩, left) := by
  simp [editItem, free, ran]

theorem editItem_error {item next : ι} {left : ρ} {e : Stop}
    (free : c.find key = some ⟨false, item⟩) (ran : f (item, r) = (.error e, next, left))
    : editItem key f (c, r) = (.error e, c.store key ⟨true, next⟩, left) := by
  simp [editItem, free, ran]

-----------------------------------------------------------------------------------------
-- Invariants of the items
-----------------------------------------------------------------------------------------

/-- All stored items are as stated. -/
def All (P : κ → ι → Prop) (c : MsContainer κ ι) : Prop :=
  ∀ key entry, c.find key = some entry → P key entry.item

/-- What is checked of all the entries at once is checked of each. -/
theorem all_entries_iff {f : Entry ι → Bool}
    : c.entries.all (fun _ entry => f entry) = true
      ↔ ∀ key entry, c.find key = some entry → f entry = true := by
  obtain ⟨entries, keyGenerator⟩ := c
  induction entries using Finmap.induction_on with
  | _ list =>
      have fold (items : List (Sigma fun _ : κ => Entry ι)) (start : Bool)
          : items.foldl (fun so_far item => so_far && f item.2) start = true
            ↔ start = true ∧ ∀ item ∈ items, f item.2 = true := by
        induction items generalizing start with
        | nil => simp
        | cons item rest ih => simp [ih, and_assoc]
      refine (fold list.entries true).trans ?_
      constructor
      · rintro ⟨_, all⟩ key entry found
        exact all ⟨key, entry⟩ (AList.mem_lookup_iff.mp found)
      · intro each
        exact ⟨rfl, fun item member => each item.1 item.2 (AList.mem_lookup_iff.mpr member)⟩

section All

variable {P : κ → ι → Prop}

theorem all_new (initial : κ) : (new initial : MsContainer κ ι).All P := by
  intro key entry found
  rw [find_new] at found
  cases found

theorem All.emplace (all : c.All P) {entry : Entry ι} (holds : P key entry.item)
    : (c.emplace key entry).All P := by
  intro other found stored
  rcases find_emplace_cases c entry stored with old | ⟨rfl, rfl⟩
  · exact all other found old
  · exact holds

theorem All.store (all : c.All P) {entry : Entry ι} (holds : P key entry.item)
    : (c.store key entry).All P := by
  intro other found stored
  rw [find_store_eq] at stored
  split at stored
  · rename_i same
    cases stored
    exact same ▸ holds
  · exact all other found stored

theorem All.remove (all : c.All P) : (c.remove key).All P := by
  intro other found stored
  by_cases same : other = key
  · rw [same, find_remove] at stored
    cases stored
  · exact all other found ((find_remove_of_ne c same).symm.trans stored)

theorem keeps_insert {P : UInt64 → ι → Prop} {item : ι} (holds : ∀ key, P key item)
    : (MsContainer.insert item).Keeps (All P) :=
  fun c all => All.emplace (c := { c with keyGenerator := c.keyGenerator + 1 }) all (holds _)

theorem keeps_insertWith {P : UInt64 → ι → Prop} {made : Except Stop ι}
    (holds : ∀ key item, made = .ok item → P key item)
    : (insertWith made).Keeps (All P) := by
  intro c all
  cases made with
  | ok item =>
      exact All.emplace (c := { c with keyGenerator := c.keyGenerator + 1 }) all (holds _ item rfl)
  | error e => exact all

theorem keeps_erase {destroy : ι → Except Stop Unit} : (erase destroy key).Keeps (All P) := by
  intro c all
  unfold erase
  split
  · exact all
  · split
    · exact all.remove
    · exact all

/-- Editing keeps what its function keeps of an item and of the rest. -/
theorem keeps_editItem {Q : ρ → Prop}
    (keeps : f.Keeps (fun part => P key part.1 ∧ Q part.2))
    : (editItem key f).Keeps (fun parts => parts.1.All P ∧ Q parts.2) := by
  rintro ⟨c, r⟩ ⟨all, rest⟩
  cases found : c.find key with
  | none =>
      rw [editItem_absent found]
      exact ⟨all, rest⟩
  | some entry =>
      obtain ⟨flag, item⟩ := entry
      cases flag with
      | true =>
          rw [editItem_blocked found]
          exact ⟨all, rest⟩
      | false =>
          have kept := keeps (item, r) ⟨all key _ found, rest⟩
          cases ran : f (item, r) with
          | mk result left =>
              rw [ran] at kept
              cases result with
              | ok a =>
                  rw [editItem_ok found ran]
                  exact ⟨all.store kept.1, kept.2⟩
              | error e =>
                  rw [editItem_error found ran]
                  exact ⟨all.store kept.1, kept.2⟩

end All

-----------------------------------------------------------------------------------------
-- Returning
-----------------------------------------------------------------------------------------

/-- Editing returns when the item is there and free, and the function returns. -/
theorem returns_editItem
    : (editItem key f).Returns (c, r)
      ↔ ∃ item, c.find key = some ⟨false, item⟩ ∧ f.Returns (item, r) := by
  constructor
  · rintro ⟨a, t, ran⟩
    cases found : c.find key with
    | none =>
        rw [editItem_absent found] at ran
        cases ran
    | some entry =>
        obtain ⟨flag, item⟩ := entry
        cases flag with
        | true =>
            rw [editItem_blocked found] at ran
            cases ran
        | false =>
            cases inner : f (item, r) with
            | mk result left =>
                cases result with
                | error e =>
                    rw [editItem_error found inner] at ran
                    cases ran
                | ok a => exact ⟨item, rfl, a, left, inner⟩
  · rintro ⟨item, free, a, ⟨next, left⟩, ran⟩
    exact ⟨a, _, editItem_ok free ran⟩

theorem quiet_editItem (quiet : f.Quiet) : (editItem key f).Quiet := by
  rintro ⟨c, r⟩ t what ran
  cases found : c.find key with
  | none =>
      rw [editItem_absent found] at ran
      cases ran
  | some entry =>
      obtain ⟨flag, item⟩ := entry
      cases flag with
      | true =>
          rw [editItem_blocked found] at ran
          cases ran
      | false =>
          cases inner : f (item, r) with
          | mk result left =>
              cases result with
              | error e =>
                  rw [editItem_error found inner] at ran
                  cases ran
                  exact quiet _ _ _ inner
              | ok a =>
                  rw [editItem_ok found inner] at ran
                  cases ran

/-- Erasing returns when the item is there and can be destroyed. -/
theorem returns_erase {destroy : ι → Except Stop Unit}
    : (erase destroy key).Returns c
      ↔ ∃ entry, c.find key = some entry ∧ destroy entry.item = .ok () := by
  cases found : c.find key with
  | none => simp [Run.Returns, erase, found]
  | some entry =>
      cases destroyed : destroy entry.item with
      | ok _ => simp [Run.Returns, erase, found, destroyed]
      | error e => simp [Run.Returns, erase, found, destroyed]

theorem quiet_erase {destroy : ι → Except Stop Unit}
    (quiet : ∀ item what, destroy item ≠ .error (.thrown (.runtimeError what)))
    : (erase destroy key).Quiet := by
  intro c t what ran
  cases found : c.find key with
  | none => simp [erase, found] at ran
  | some entry =>
      cases destroyed : destroy entry.item with
      | ok _ => simp [erase, found, destroyed] at ran
      | error e =>
          simp only [erase, found, destroyed, Prod.mk.injEq, Except.error.injEq] at ran
          rw [ran.1] at destroyed
          exact quiet _ _ destroyed

theorem returns_insertWith {made : Except Stop ι} {c : MsContainer UInt64 ι}
    : (insertWith made).Returns c ↔ ∃ item, made = .ok item := by
  cases made <;> simp [Run.Returns, insertWith]

theorem quiet_insertWith {made : Except Stop ι}
    (quiet : ∀ what, made ≠ .error (.thrown (.runtimeError what)))
    : (insertWith made).Quiet := by
  intro c t what ran
  cases made with
  | ok item => cases ran
  | error e => exact quiet what (congrArg Except.error (Except.error.inj (Prod.mk.inj ran).1))

end MsContainer

end Sabot
