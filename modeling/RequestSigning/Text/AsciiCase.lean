import RequestSigning.Bytes

/-!
# ASCII case

Header names and methods are compared without regard to the case of ASCII letters; all other
characters, letters outside ASCII included, count as they stand.
-/

namespace RequestSigning.Text

/-- a text with its ASCII capitals replaced by small letters -/
def fold (s : String) : String := String.ofList (s.toList.map Char.toLower)

/-- two texts that differ in the case of ASCII letters at most -/
def EqIgnoringCase (a b : String) : Prop := fold a = fold b

instance (a b : String) : Decidable (EqIgnoringCase a b) := inferInstanceAs (Decidable (_ = _))

theorem EqIgnoringCase.refl (a : String) : EqIgnoringCase a a := rfl
theorem EqIgnoringCase.symm {a b : String} (h : EqIgnoringCase a b) : EqIgnoringCase b a :=
  Eq.symm h
theorem EqIgnoringCase.trans {a b c : String} (h : EqIgnoringCase a b) (k : EqIgnoringCase b c) :
    EqIgnoringCase a c := Eq.trans h k

theorem toList_fold (s : String) : (fold s).toList = s.toList.map Char.toLower :=
  String.toList_ofList

/-- the octet of an ASCII small letter becomes that of its capital; other octets stay -/
def upperByte (b : UInt8) : UInt8 := if byte 'a' ≤ b ∧ b ≤ byte 'z' then b - 32 else b

end RequestSigning.Text
