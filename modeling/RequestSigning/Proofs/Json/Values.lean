import RequestSigning.Proofs.Json.Numbers
import RequestSigning.Proofs.Json.Records

/-!
# JSON values: reading undoes writing

`Value.Kept` holds of the values that have a text of their own: integers are words, there are no
doubles, and the members of an object are in order.  A written value of this sort is read back to
the depth that the reader allows, and refused if it is deeper (`readsAs_readValue`).
-/

namespace RequestSigning.Json

/-! ## sorted members -/

section
variable {α : Type}

theorem insertMember_of_lt (name : String) (v : α) (members : List (String × α))
    (h : ∀ m ∈ members, m.1 < name) : insertMember name v members = members ++ [(name, v)] := by
  induction members with
  | nil => rfl
  | cons m members ih =>
    have hm : m.1 < name := h m List.mem_cons_self
    have hne : name ≠ m.1 := fun he => String.lt_irrefl name (he ▸ hm)
    rw [insertMember, if_neg hne, if_neg (String.lt_asymm hm),
      ih fun q hq => h q (List.mem_cons_of_mem m hq)]
    rfl

theorem sortMembers_eq_self (members : List (String × α))
    (h : (members.map (·.1)).Pairwise (· < ·)) : sortMembers members = members := by
  -- what has been inserted so far and what is left are in order as a whole
  have hrun : ∀ sorted : List (String × α), ((sorted ++ members).map (·.1)).Pairwise (· < ·) →
      members.foldl (fun sorted m => insertMember m.1 m.2 sorted) sorted = sorted ++ members := by
    induction members with
    | nil => exact fun sorted _ => (List.append_nil sorted).symm
    | cons m members ih =>
      intro sorted hsorted
      have hlt : ∀ q ∈ sorted, q.1 < m.1 := by
        rw [List.map_append, List.pairwise_append] at hsorted
        exact fun q hq => hsorted.2.2 q.1 (List.mem_map_of_mem hq) m.1 List.mem_cons_self
      have happend : sorted ++ m :: members = (sorted ++ [m]) ++ members :=
        (List.append_cons sorted m members)
      rw [List.foldl_cons, insertMember_of_lt m.1 m.2 sorted hlt]
      rw [happend] at hsorted ⊢
      exact ih (List.pairwise_cons.mp h).2 _ hsorted
  exact hrun [] h

end

/-! ## values -/

/-- a value that its text determines -/
inductive Value.Kept : Value → Prop
  | null : Kept .null
  | bool (b : Bool) : Kept (.bool b)
  | int (n : Int) (h : IsWord n) : Kept (.int n)
  | string (s : String) : Kept (.string s)
  | array (items : List Value) (h : ∀ v ∈ items, Kept v) : Kept (.array items)
  | object (members : List (String × Value)) (hsorted : (members.map (·.1)).Pairwise (· < ·))
      (h : ∀ m ∈ members, Kept m.2) : Kept (.object members)

mutual

/-- how deep arrays and objects nest in a value -/
def Value.depth : Value → Nat
  | .array items => depthOfItems items + 1
  | .object members => depthOfMembers members + 1
  | _ => 0

def depthOfItems : List Value → Nat
  | [] => 0
  | v :: items => max v.depth (depthOfItems items)

def depthOfMembers : List (String × Value) → Nat
  | [] => 0
  | (_, v) :: members => max v.depth (depthOfMembers members)

end

theorem depthOfItems_le_iff (items : List Value) (n : Nat) :
    depthOfItems items ≤ n ↔ ∀ v ∈ items, v.depth ≤ n := by
  induction items with
  | nil => simp [depthOfItems]
  | cons v items ih => rw [depthOfItems, Nat.max_le, ih, List.forall_mem_cons]

theorem depthOfMembers_le_iff (members : List (String × Value)) (n : Nat) :
    depthOfMembers members ≤ n ↔ ∀ m ∈ members, m.2.depth ≤ n := by
  induction members with
  | nil => simp [depthOfMembers]
  | cons m members ih => rw [depthOfMembers, Nat.max_le, ih, List.forall_mem_cons]

/-! ## how a value begins -/

/-- an octet that a written value can begin with -/
def Begins (b : UInt8) : Prop := isBlank b = false ∧ b ≠ byte ']' ∧ b ≠ byte '\x7d'

instance (b : UInt8) : Decidable (Begins b) := inferInstanceAs (Decidable (_ ∧ _))

/-- an octet that a number begins with is no other punctuation and begins no word -/
def BeginsNumber (b : UInt8) : Prop :=
  Begins b ∧ b ≠ byte '"' ∧ b ≠ byte '[' ∧ b ≠ byte '\x7b' ∧ b ≠ byte 'n' ∧ b ≠ byte 't' ∧
    b ≠ byte 'f'

instance (b : UInt8) : Decidable (BeginsNumber b) := inferInstanceAs (Decidable (_ ∧ _))

theorem beginsNumber_of_isDigit {b : UInt8} (h : isDigit b = true) : BeginsNumber b := by
  have hall : ∀ b, isDigit b = true → BeginsNumber b := forall_octet (by decide +kernel)
  exact hall b h

theorem exists_repr_eq (n : Int) :
    ∃ b body, Bytes.ofChars n.repr.toList = b :: body ∧ BeginsNumber b := by
  cases n with
  | ofNat n =>
    obtain ⟨b, body, hb, hdigit⟩ := exists_toDigits_eq n
    refine ⟨b, body, ?_, beginsNumber_of_isDigit hdigit⟩
    rw [← hb, ← toList_repr]
    rfl
  | negSucc n =>
    refine ⟨byte '-', Bytes.ofChars (n + 1).repr.toList, ?_, by decide⟩
    show Bytes.ofChars ("-" ++ (n + 1).repr).toList = _
    rw [String.toList_append, Bytes.ofChars_append]
    rfl

/-- no written value but `null` begins like the word -/
theorem Value.Kept.exists_chars_eq {v : Value} (h : v.Kept) :
    ∃ b body, Bytes.ofChars v.chars = b :: body ∧ Begins b ∧ (v ≠ .null → b ≠ byte 'n') := by
  cases h with
  | null => exact ⟨byte 'n', Bytes.ofChars "ull".toList, rfl, by decide, fun h => absurd rfl h⟩
  | bool b =>
    cases b with
    | true => exact ⟨byte 't', Bytes.ofChars "rue".toList, rfl, by decide, fun _ => by decide⟩
    | false => exact ⟨byte 'f', Bytes.ofChars "alse".toList, rfl, by decide, fun _ => by decide⟩
  | int n _ =>
    obtain ⟨b, body, hb, hbegins, -, -, -, hn, -⟩ := exists_repr_eq n
    exact ⟨b, body, by rw [Value.chars]; exact hb, hbegins, fun _ => hn⟩
  | string s =>
    obtain ⟨body, hbody⟩ := exists_stringChars_eq s
    exact ⟨byte '"', body, by rw [Value.chars]; exact hbody, by decide, fun _ => by decide⟩
  | array items _ =>
    exact ⟨byte '[', _, by rw [Value.chars, Bytes.ofChars_cons]; rfl, by decide,
      fun _ => by decide⟩
  | object members _ _ =>
    exact ⟨byte '\x7b', _, by rw [Value.chars, Bytes.ofChars_cons]; rfl, by decide,
      fun _ => by decide⟩

/-! ## reading by the first octet -/

theorem readValue_quote (depth : Nat) (body : Bytes) : readValue depth (byte '"' :: body)
    = (readString body).map fun (text, rest) => (.string text, rest) := by
  rw [readValue.eq_def]
  simp only [skipBlank_cons _ body isBlank_quote, if_true]

theorem readValue_word (depth : Nat) {v : Value} (h : v = .null ∨ v = .bool true ∨ v = .bool false)
    (rest : Bytes) : readValue depth (Bytes.ofChars v.chars ++ rest) = some (v, rest) := by
  rcases h with rfl | rfl | rfl
  · show readValue depth (byte 'n' :: (Bytes.ofChars "ull".toList ++ rest)) = _
    rw [readValue.eq_def]
    rfl
  · show readValue depth (byte 't' :: (Bytes.ofChars "rue".toList ++ rest)) = _
    rw [readValue.eq_def]
    rfl
  · show readValue depth (byte 'f' :: (Bytes.ofChars "alse".toList ++ rest)) = _
    rw [readValue.eq_def]
    rfl

theorem readValue_number (depth : Nat) {b : UInt8} (hb : BeginsNumber b) {s : Bytes}
    {numeral : Numeral} {rest : Bytes} (h : scanNumber (b :: s) = some (numeral, rest)) :
    readValue depth (b :: s) = numeral.value?.map fun v => (v, rest) := by
  obtain ⟨⟨hblank, -, -⟩, hquote, hbracket, hbrace, hn, ht, hf⟩ := hb
  rw [readValue.eq_def]
  simp only [skipBlank_cons b s hblank, if_neg hquote, if_neg hbracket, if_neg hbrace, if_neg hn,
    if_neg ht, if_neg hf, h, Option.bind_eq_bind, Option.bind_some]
  cases numeral.value? <;> rfl

theorem readValue_bracket (depth : Nat) (rest : Bytes) : readValue depth (byte '[' :: rest)
    = match depth with
      | 0 => none
      | depth + 1 => (sequence (byte ']') (readValue depth) rest).map fun (items, rest) =>
          (.array items, rest) := by
  rw [readValue.eq_def]
  rfl

theorem readValue_brace (depth : Nat) (rest : Bytes) : readValue depth (byte '\x7b' :: rest)
    = match depth with
      | 0 => none
      | depth + 1 =>
        (sequence (byte '\x7d') (readMember (readValue depth)) rest).map fun (members, rest) =>
          (.object (sortMembers members), rest) := by
  rw [readValue.eq_def]
  rfl

/-! ## reading what is written -/

theorem mapM_ite {α : Type} (l : List α) (p : α → Prop) [DecidablePred p] :
    (l.mapM fun a => if p a then some a else none) = if ∀ a ∈ l, p a then some l else none := by
  induction l with
  | nil => rfl
  | cons a l ih =>
    rw [List.mapM_cons, ih]
    by_cases ha : p a
    · by_cases hl : ∀ b ∈ l, p b
      · rw [if_pos ha, if_pos hl, if_pos (List.forall_mem_cons.mpr ⟨ha, hl⟩)]
        rfl
      · rw [if_pos ha, if_neg hl, if_neg fun h => hl (List.forall_mem_cons.mp h).2]
        rfl
    · rw [if_neg ha, if_neg fun h => ha (List.forall_mem_cons.mp h).1]
      rfl

theorem endsNumber_of_close {b : UInt8} (h : b = byte ',' ∨ b = byte ']' ∨ b = byte '\x7d') :
    EndsNumber b := by
  rcases h with rfl | rfl | rfl <;> decide

/-- a member is read as its value is -/
theorem readsAs_readMember {close : UInt8} {value : Reader Value} (name : String) (v : Value)
    (r : Option Value) (h : ReadsAs close value v.chars r) :
    ReadsAs close (readMember value) (stringChars name ++ ':' :: v.chars) (r.map (name, ·)) := by
  intro b rest hb
  have hname := readName_stringChars name (Bytes.ofChars v.chars ++ b :: rest)
  rw [ofChars_member]
  simp only [readMember, hname, Option.bind_eq_bind, Option.bind_some, h b rest hb]
  cases r <;> rfl

theorem sequence_items {items : List Value} (hkept : ∀ v ∈ items, v.Kept) (depth : Nat)
    (h : ∀ v ∈ items, ReadsAs (byte ']') (readValue depth) v.chars
      (if v.depth ≤ depth then some v else none)) (rest : Bytes) :
    sequence (byte ']') (readValue depth)
        (Bytes.ofChars (commas (itemChars items)) ++ byte ']' :: rest)
      = (if ∀ v ∈ items, v.depth ≤ depth then some items else none).map (·, rest) := by
  let parts := items.map fun v => (v.chars, if v.depth ≤ depth then some v else none)
  have hfirst : ∀ part ∈ parts, ∃ b body, Bytes.ofChars part.1 = b :: body ∧ isBlank b = false ∧
      b ≠ byte ']' := by
    refine List.forall_mem_map.mpr fun v hv => ?_
    obtain ⟨b, body, hb, hbegins, -⟩ := (hkept v hv).exists_chars_eq
    exact ⟨b, body, hb, hbegins.1, hbegins.2.1⟩
  have hseq := sequence_commas_eq (byte ']') (readValue depth) (by decide) (by decide) parts
    (List.forall_mem_map.mpr h) hfirst rest
  have hchars : parts.map (·.1) = itemChars items := by
    rw [itemChars_eq_map, List.map_map]
    rfl
  have hmapM : parts.mapM Prod.snd = if ∀ v ∈ items, v.depth ≤ depth then some items else none := by
    rw [List.mapM_map]
    exact mapM_ite items fun v => v.depth ≤ depth
  rwa [hchars, hmapM] at hseq

theorem sequence_members {members : List (String × Value)} (depth : Nat)
    (h : ∀ m ∈ members, ReadsAs (byte '\x7d') (readValue depth) m.2.chars
      (if m.2.depth ≤ depth then some m.2 else none)) (rest : Bytes) :
    sequence (byte '\x7d') (readMember (readValue depth))
        (Bytes.ofChars (commas (memberChars members)) ++ byte '\x7d' :: rest)
      = (if ∀ m ∈ members, m.2.depth ≤ depth then some members else none).map (·, rest) := by
  rw [← mapM_ite members fun m => m.2.depth ≤ depth]
  refine sequence_memberChars _ members _ (fun m hm => ?_) rest
  have hread := readsAs_readMember m.1 m.2 _ (h m hm)
  by_cases hdepth : m.2.depth ≤ depth
  · rwa [if_pos hdepth] at hread ⊢
  · rwa [if_neg hdepth] at hread ⊢

/-- **A written value is read back, if it is no deeper than the reader allows.** -/
theorem readsAs_readValue {v : Value} (hv : v.Kept) {close : UInt8}
    (hclose : close = byte ']' ∨ close = byte '\x7d') (depth : Nat) :
    ReadsAs close (readValue depth) v.chars (if v.depth ≤ depth then some v else none) := by
  -- by induction on the value: items and members are read with one level less, and members end with
  -- another octet than items
  induction hv generalizing close depth with
  | null => exact fun b rest _ => readValue_word depth (Or.inl rfl) _
  | bool b =>
    intro b' rest _
    refine readValue_word depth (Or.inr ?_) _
    cases b with
    | true => exact Or.inl rfl
    | false => exact Or.inr rfl
  | int n h =>
    intro b rest hb
    obtain ⟨c, body, hc, hbegins⟩ := exists_repr_eq n
    have hends : EndsNumber b := by
      rcases hb with rfl | rfl
      · exact endsNumber_of_close (Or.inl rfl)
      · exact endsNumber_of_close (Or.inr hclose)
    have hscan := scanNumber_repr n hends rest
    rw [hc, List.cons_append] at hscan
    rw [Value.chars, hc, List.cons_append, readValue_number depth hbegins hscan, value?_numeral h]
    rfl
  | string s =>
    intro b rest _
    obtain ⟨body, hbody, hread⟩ := stringChars_eq s (b :: rest)
    rw [Value.chars, hbody, readValue_quote, hread]
    rfl
  | array items h ih =>
    intro b rest _
    rw [ofChars_array, readValue_bracket, Value.depth]
    cases depth with
    | zero => rfl
    | succ depth =>
      dsimp only
      rw [sequence_items h depth (fun v hv => ih v hv (Or.inl rfl) depth) (b :: rest)]
      simp only [Nat.add_le_add_iff_right, depthOfItems_le_iff]
      split <;> rfl
  | object members hsorted h ih =>
    intro b rest _
    rw [ofChars_object, readValue_brace, Value.depth]
    cases depth with
    | zero => rfl
    | succ depth =>
      dsimp only
      rw [sequence_members depth (fun m hm => ih m hm (Or.inr rfl) depth) (b :: rest)]
      simp only [Nat.add_le_add_iff_right, depthOfMembers_le_iff]
      split
      · exact congrArg (fun sorted => some (Value.object sorted, b :: rest))
          (sortMembers_eq_self members hsorted)
      · rfl

end RequestSigning.Json
