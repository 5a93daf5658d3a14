import LangServer.Number.Double

/-!
# Dynamic values

Settings, message parameters and answers are trees of null, truth values, numbers, texts, lists and
objects. An object keeps its members in the order in which they were first given.

Two values are *alike* when they count as the same element of a set: numbers and truth values
compare by their numeric value, objects without regard to order.
-/

namespace LangServer

/-- A dynamic value. -/
inductive Value where
  | null
  | bool (b : Bool)
  | int (n : Int)
  | num (x : Double)
  | str (s : String)
  | list (items : List Value)
  | object (members : List (String × Value))
  deriving Repr, Inhabited

namespace Value

/-! ## Members in order -/

/-- The value of a key among members. -/
def lookup {α : Type} (key : String) : List (String × α) → Option α
  | [] => none
  | (k, v) :: rest => if k = key then some v else lookup key rest

/-- Sets a key: in its place if it is there, else at the end. -/
def insert {α : Type} (key : String) (v : α) : List (String × α) → List (String × α)
  | [] => [(key, v)]
  | (k, w) :: rest => if k = key then (key, v) :: rest else (k, w) :: insert key v rest

/-- The members without a key. -/
def erase {α : Type} (key : String) (ms : List (String × α)) : List (String × α) :=
  ms.filter fun (k, _) => k != key

@[simp] theorem lookup_insert_self {α : Type} (key : String) (v : α) (ms : List (String × α)) :
    lookup key (insert key v ms) = some v := by
  induction ms with
  | nil => simp [insert, lookup]
  | cons m rest ih =>
    obtain ⟨k, w⟩ := m
    by_cases h : k = key <;> simp [insert, lookup, h, ih]

theorem lookup_insert_of_ne {α : Type} {key other : String} (h : other ≠ key) (v : α)
    (ms : List (String × α)) : lookup other (insert key v ms) = lookup other ms := by
  induction ms with
  | nil => simp [insert, lookup, Ne.symm h]
  | cons m rest ih =>
    obtain ⟨k, w⟩ := m
    by_cases hk : k = key
    · subst hk; simp [insert, lookup, Ne.symm h]
    · by_cases ho : k = other
      · subst ho; simp [insert, lookup, hk]
      · simp [insert, lookup, hk, ho, ih]

/-! ## Truth -/

/-- Null, false, zero and everything empty count as false. -/
def truthy : Value → Bool
  | null => false
  | bool b => b
  | int n => n != 0
  | num (.finite _ m _) => m != 0
  | num _ => true
  | str s => !s.isEmpty
  | list items => !items.isEmpty
  | object members => !members.isEmpty

def isNull : Value → Bool
  | null => true
  | _ => false

/-- Lists and objects cannot be elements of a set. -/
def isHashable : Value → Bool
  | list _ | object _ => false
  | _ => true

/-! ## Equality -/

mutual

/-- Are two values the same? -/
def beq : Value → Value → Bool
  | null, null => true
  | bool a, bool b => a == b
  | int a, int b => a == b
  | num a, num b => a == b
  | str a, str b => a == b
  | list a, list b => beqItems a b
  | object a, object b => beqMembers a b
  | _, _ => false

def beqItems : List Value → List Value → Bool
  | [], [] => true
  | a :: as, b :: bs => beq a b && beqItems as bs
  | _, _ => false

def beqMembers : List (String × Value) → List (String × Value) → Bool
  | [], [] => true
  | (k, a) :: as, (l, b) :: bs => k == l && beq a b && beqMembers as bs
  | _, _ => false

end

mutual

theorem eq_of_beq : ∀ a b : Value, beq a b = true → a = b
  | null, b, h => by cases b <;> simp_all [beq]
  | bool _, b, h => by cases b <;> simp_all [beq]
  | int _, b, h => by cases b <;> simp_all [beq]
  | num _, b, h => by cases b <;> simp_all [beq]
  | str _, b, h => by cases b <;> simp_all [beq]
  | list as, b, h => by
    cases b <;> simp_all [beq]
    exact eq_of_beqItems _ _ h
  | object as, b, h => by
    cases b <;> simp_all [beq]
    exact eq_of_beqMembers _ _ h

theorem eq_of_beqItems : ∀ a b : List Value, beqItems a b = true → a = b
  | [], b, h => by cases b <;> simp_all [beqItems]
  | a :: as, bs, h => by
    cases bs with
    | nil => simp [beqItems] at h
    | cons b bs =>
      simp only [beqItems, Bool.and_eq_true] at h
      rw [eq_of_beq a b h.1, eq_of_beqItems as bs h.2]

theorem eq_of_beqMembers : ∀ a b : List (String × Value), beqMembers a b = true → a = b
  | [], b, h => by cases b <;> simp_all [beqMembers]
  | (k, a) :: as, bs, h => by
    cases bs with
    | nil => simp [beqMembers] at h
    | cons m bs =>
      obtain ⟨l, b⟩ := m
      simp only [beqMembers, Bool.and_eq_true, beq_iff_eq] at h
      rw [h.1.1, eq_of_beq a b h.1.2, eq_of_beqMembers as bs h.2]

end

mutual

theorem beq_self : ∀ a : Value, beq a a = true
  | null => rfl
  | bool _ | int _ | num _ | str _ => by simp [beq]
  | list as => by simp [beq, beqItems_self as]
  | object as => by simp [beq, beqMembers_self as]

theorem beqItems_self : ∀ as : List Value, beqItems as as = true
  | [] => rfl
  | a :: as => by simp [beqItems, beq_self a, beqItems_self as]

theorem beqMembers_self : ∀ as : List (String × Value), beqMembers as as = true
  | [] => rfl
  | (_, a) :: as => by simp [beqMembers, beq_self a, beqMembers_self as]

end

instance : DecidableEq Value := fun a b =>
  if h : beq a b = true then .isTrue (eq_of_beq a b h)
  else .isFalse fun e => h (e ▸ beq_self a)

/-- The whole number that a truth value or a number stands for, if it does. -/
def whole? : Value → Option Int
  | bool b => some (if b then 1 else 0)
  | int n => some n
  | num x => x.toInt?
  | _ => none

/-- Do two values count as the same element of a set?  Truth values and numbers compare by their
numeric value. -/
def alike (a b : Value) : Bool :=
  match a.whole?, b.whole? with
  | some m, some n => m == n
  | _, _ => decide (a = b)

/-- The elements of a list that are not alike to an earlier one. -/
def distinct (seen : List Value) : List Value → List Value
  | [] => []
  | a :: rest => if seen.any (alike a) then distinct seen rest else a :: distinct (a :: seen) rest

/-! ## Building -/

def texts (xs : List String) : Value := list (xs.map str)

def ofText? : Option String → Value
  | some s => str s
  | none => null

end Value
end LangServer
