import PhpFlow.Evaluation.Expression

/-!
# Faults about numbers

Conversions and arithmetic on values may end in a fault about a number that is too large or too long, but in
no other.
-/
namespace PhpFlow

variable {α β : Type}

namespace Fault

def isNumeric : Fault → Bool
  | integerTooLarge | quotientTooLarge | tooManyDigits _ | tooLongToWrite => true
  | deadScope _ | emptyScopeStack | corruptScopeStack _ _ | noScopeToPop => false

theorem isInternal_of_isNumeric {e : Fault} (he : e.isNumeric) : e.isInternal = false := by
  cases e <;> first | rfl | cases he

end Fault

def NumericOnly (r : Except Fault α) : Prop := ∀ e, r = .error e → e.isNumeric

namespace NumericOnly

theorem ok (a : α) : NumericOnly (.ok a) := by
  intro e he
  cases he

theorem error {e : Fault} (he : e.isNumeric) : NumericOnly (.error e : Except Fault α) := by
  intro e' he'
  cases he'
  exact he

theorem bind {r : Except Fault α} {f : α → Except Fault β} (hr : NumericOnly r)
    (hf : ∀ a, NumericOnly (f a)) : NumericOnly (r >>= f) := by
  cases r with
  | error e => exact error (hr e rfl)
  | ok a => exact hf a

theorem map {r : Except Fault α} (f : α → β) (hr : NumericOnly r) : NumericOnly (r.map f) := by
  cases r with
  | error e => exact error (hr e rfl)
  | ok a => exact ok (f a)

theorem toFloat (n : Number) : NumericOnly n.toFloat := by
  cases n with
  | float x => exact ok x
  | int n =>
    rw [Number.toFloat]
    cases Number.ofInt? n with
    | some x => exact ok x
    | none => exact error rfl

theorem lift (f : Int → Int → Int) (g : Float → Float → Float) (a b : Number) :
    NumericOnly (Number.lift f g a b) := by
  unfold Number.lift
  split
  · exact ok _
  · exact (toFloat a).bind fun _ => (toFloat b).bind fun _ => ok _

theorem div (a b : Number) : NumericOnly (a.div b) := by
  unfold Number.div
  split
  · split
    · exact ok _
    · split
      · exact ok _
      · exact error rfl
  · exact (toFloat _).bind fun _ => (toFloat _).bind fun _ => ok _

theorem ofNumber (n : Number) : NumericOnly (Value.ofNumber n) := by
  cases n with
  | float x => exact ok _
  | int n =>
    rw [Value.ofNumber]
    split
    · exact ok _
    · exact (toFloat _).map _

theorem numeral (n : Numeral) : NumericOnly n.value := by
  unfold Numeral.value
  split
  · split
    · exact error rfl
    · generalize (if n.negative then _ else _ : Int) = v
      dsimp only
      split
      · exact ok _
      · exact (toFloat _).map _
  · exact ok _

theorem leading? (s : String) : NumericOnly (NumericText.leading? s) := by
  unfold NumericText.leading?
  split
  · exact (numeral _).map _
  · exact ok _

theorem whole? (s : String) : NumericOnly (NumericText.whole? s) := by
  unfold NumericText.whole?
  split
  · exact (numeral _).map _
  · exact ok _

theorem toKey (s : String) : NumericOnly (NumericText.toKey s) := by
  unfold NumericText.toKey
  dsimp only
  split
  · split
    · exact error rfl
    · exact ok _
  · exact ok _

theorem write (n : Int) : NumericOnly (Number.write n) := by
  unfold Number.write
  split
  · exact ok _
  · exact error rfl

theorem writeUnion (u : TypeUnion) : NumericOnly u.write := by
  unfold TypeUnion.write
  split
  · exact ok _
  · exact error rfl

variable (v : Value)

theorem toInt? : NumericOnly v.toInt? := by
  cases v with
  | string s =>
    refine (leading? s).bind fun n => ?_
    split <;> exact ok _
  | _ => exact ok _

theorem toNumber? : NumericOnly v.toNumber? := by
  cases v with
  | string s => exact leading? s
  | _ => exact ok _

theorem toFloat? : NumericOnly v.toFloat? := by
  refine (toNumber? v).bind fun n => ?_
  split
  · exact ok _
  · exact (toFloat _).map _

theorem toString? : NumericOnly v.toString? := by
  cases v with
  | int n => exact (write n).map _
  | _ => exact ok _

theorem toKey? : NumericOnly v.toKey? := by
  cases v with
  | string s => exact (toKey s).map _
  | _ => exact ok _

theorem numberEqualsString (n : Value) (s : String) : NumericOnly (n.numberEqualsString s) := by
  unfold Value.numberEqualsString
  split
  · refine (toNumber? n).bind fun a => (whole? s).bind fun b => ?_
    split <;> exact ok _
  · exact (toString? n).bind fun _ => ok _

theorem stringEqualsString (a b : String) : NumericOnly (Value.stringEqualsString a b) := by
  unfold Value.stringEqualsString
  split
  · refine (whole? a).bind fun x => (whole? b).bind fun y => ?_
    split <;> exact ok _
  · exact ok _

theorem sameKeys (as bs : List (ArrayKey × Value)) : NumericOnly (Value.sameKeys as bs) := by
  unfold Value.sameKeys
  split
  · exact ok _
  · exact error rfl

mutual

theorem looseEqual (a b : Value) : NumericOnly (a.looseEqual b) := by
  cases a with
  | array as =>
    cases b with
    | array bs =>
      rw [Value.looseEqual]
      have h := sameKeys as bs
      split
      · next e he => exact error (h e he)
      · split
        · exact looseEqualEntries bs as _
        · exact ok _
    | _ => exact ok _
  | string s =>
    cases b with
    | string t => exact stringEqualsString s t
    | int _ | float _ => exact numberEqualsString _ s
    | _ => exact ok _
  | int n =>
    cases b with
    | string s => exact numberEqualsString _ s
    | _ => exact ok _
  | float x =>
    cases b with
    | string s => exact numberEqualsString _ s
    | _ => exact ok _
  | object c =>
    rw [Value.looseEqual]
    split <;> exact ok _
  | null => cases b <;> exact ok _
  | bool p => cases b <;> exact ok _

theorem looseEqualEntries (bs : List (ArrayKey × Value)) (as : List (ArrayKey × Value))
    (verdict : Option Bool) : NumericOnly (Value.looseEqualEntries bs as verdict) := by
  cases as with
  | nil => exact ok _
  | cons entry as =>
    obtain ⟨k, a⟩ := entry
    rw [Value.looseEqualEntries]
    split
    · exact ok _
    · refine (looseEqual a _).bind fun r => ?_
      split
      · exact ok _
      · exact looseEqualEntries bs as _
      · exact looseEqualEntries bs as _

end

theorem concatValue (a b : Value) : NumericOnly (Operator.concatValue a b) := by
  refine (toString? a).bind fun s => (toString? b).bind fun t => ?_
  split <;> exact ok _

theorem signValue (op : String) (v : Value) : NumericOnly (Meaning.signValue op v) := by
  refine (toNumber? v).bind fun n => ?_
  split
  · exact ok _
  · split
    · exact (ofNumber _).map _
    · split
      · exact (ofNumber _).map _
      · exact ok _

theorem unaryValue (op : String) (v : Value) : NumericOnly (Meaning.unaryValue op v) := by
  unfold Meaning.unaryValue
  split
  · exact ok _
  · split
    · exact ok _
    · split
      · split <;> exact ok _
      · exact signValue op v

theorem castValue (t : Meaning.CastTarget) (v : Value) : NumericOnly (t.value v) := by
  cases t with
  | int => exact (toInt? v).map _
  | float => exact (toFloat? v).map _
  | string => exact (toString? v).map _
  | _ => exact ok _

theorem elementAt? (base index : Value) : NumericOnly (PhpFlow.elementAt? base index) := by
  unfold PhpFlow.elementAt?
  split
  · exact (toKey? _).map _
  · exact ok _
  · exact ok _

end NumericOnly

end PhpFlow
