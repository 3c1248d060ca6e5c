import RequestSigning.Signer
import RequestSigning.Proofs.HeaderTable
import RequestSigning.Proofs.Token

/-!
# Signing: what a signer has collected, and what it asks for

A signer takes headers whose names are `Signable` and differ (`Admissible`).  After any calls it
holds all headers that were added, in this order and with trimmed names, or it holds the fault of
the first header that it did not take (`Latched`, `latched_applyAll_new`); each call keeps this,
and headers that come later never replace a fault.  `Collected` is the first of the two cases for
a signer of which only the table matters.

`prepare_eq_ok_iff` and `run_sign_eq_ok_iff` say when there is a signing input and when there is a
token; `run_sign_recording` says what a strategy is asked.
-/

namespace RequestSigning.Signer

/-! ## calls -/

def Call.added : Call → List (String × Bytes)
  | .header name value => [(name, value)]
  | .headers more => more
  | _ => []

/-- the headers that a sequence of calls adds -/
def added (calls : List Call) : List (String × Bytes) := calls.flatMap Call.added

def trimmed (headers : List (String × Bytes)) : List (String × Bytes) :=
  headers.map fun h => (Text.trim h.1, h.2)

theorem trimmed_append (headers more : List (String × Bytes)) :
    trimmed (headers ++ more) = trimmed headers ++ trimmed more := List.map_append

theorem names_of_trimmed {table : HeaderTable} {headers : List (String × Bytes)}
    (h : table.toList = trimmed headers) : table.names = headers.map fun h => Text.trim h.1 := by
  rw [HeaderTable.names, h, trimmed, List.map_map]
  rfl

/-- adding headers leaves the other values alone -/
theorem exists_addHeaders_eq (s : Signer) (more : List (String × Bytes)) :
    ∃ table fault?, s.addHeaders more = { s with headers := table, fault? } := by
  induction more generalizing s with
  | nil => exact ⟨s.headers, s.fault?, rfl⟩
  | cons header more ih =>
    obtain ⟨table, fault?, h⟩ := ih (s.addHeader header.1 header.2)
    refine ⟨table, fault?, ?_⟩
    show (s.addHeader header.1 header.2).addHeaders more = _
    rw [h]
    unfold addHeader
    cases extend s.headers header.1 header.2 <;> rfl

section
variable {P : Signer → List (String × Bytes) → Prop}
  (hadd : ∀ s headers name value, P s headers →
    P (s.addHeader name value) (headers ++ [(name, value)]))
include hadd

theorem invariant_addHeaders {s : Signer} {headers : List (String × Bytes)} (hs : P s headers)
    (more : List (String × Bytes)) : P (s.addHeaders more) (headers ++ more) := by
  induction more generalizing s headers with
  | nil => rwa [List.append_nil]
  | cons header more ih =>
    -- what has been added so far grows along the induction
    have hrun := ih (hadd s headers header.1 header.2 hs)
    rwa [List.append_assoc] at hrun

variable
  (hframe : ∀ s s' headers, s'.headers = s.headers → s'.fault? = s.fault? → P s headers →
    P s' headers)
include hframe

/-- what adding a header keeps, each call keeps, if it is about the headers and the fault only -/
theorem invariant_apply {s : Signer} {headers : List (String × Bytes)} (hs : P s headers)
    (call : Call) : P (s.apply call) (headers ++ call.added) := by
  cases call with
  | header name value => exact hadd s headers name value hs
  | headers more => exact invariant_addHeaders hadd hs more
  | method | path | body | jku =>
    show P _ (headers ++ [])
    rw [List.append_nil]
    exact hframe s _ headers rfl rfl hs

/-- **What each call keeps holds after any calls.** -/
theorem invariant_applyAll {s : Signer} {headers : List (String × Bytes)} (hs : P s headers)
    (calls : List Call) : P (s.applyAll calls) (headers ++ added calls) := by
  induction calls generalizing s headers with
  | nil => rwa [added, List.flatMap_nil, List.append_nil]
  | cons call calls ih =>
    have hrun := ih (invariant_apply hadd hframe hs call)
    rwa [List.append_assoc] at hrun

end

/-! ## which headers are taken -/

/-- signable names that differ by more than case and blanks at their ends -/
structure Admissible (headers : List (String × Bytes)) : Prop where
  signable : ∀ h ∈ headers, Signable h.1
  distinct : headers.Pairwise fun a b => HeaderTable.key a.1 ≠ HeaderTable.key b.1

/-- what is wrong with a name that comes after other headers -/
inductive Offends (earlier : List (String × Bytes)) (name : String) : ArgumentFault → Prop where
  | unsignable (h : ¬ Signable name) : Offends earlier name (.unsignableName name)
  | duplicate (hname : Signable name) (header : String × Bytes) (hm : header ∈ earlier)
      (hkey : HeaderTable.key header.1 = HeaderTable.key name) :
      Offends earlier name (.duplicateHeader (Text.trim name))

/-- what is wrong with the first of the headers that is not taken -/
def FirstOffence (headers : List (String × Bytes)) (fault : ArgumentFault) : Prop :=
  ∃ before header after, headers = before ++ header :: after ∧ Admissible before ∧
    Offends before header.1 fault

theorem admissible_nil : Admissible [] where
  signable := fun _ h => absurd h List.not_mem_nil
  distinct := .nil

theorem Admissible.left {headers more : List (String × Bytes)} (h : Admissible (headers ++ more)) :
    Admissible headers where
  signable := fun header hm => h.signable header (List.mem_append_left more hm)
  distinct := (List.pairwise_append.mp h.distinct).1

theorem Offends.fault_unique {earlier : List (String × Bytes)} {name : String}
    {fault fault' : ArgumentFault} (h : Offends earlier name fault)
    (h' : Offends earlier name fault') : fault = fault' := by
  cases h with
  | unsignable hname =>
    cases h' with
    | unsignable => rfl
    | duplicate hname' => exact absurd hname' hname
  | duplicate hname =>
    cases h' with
    | unsignable hname' => exact absurd hname hname'
    | duplicate => rfl

theorem Offends.not_admissible {before after : List (String × Bytes)} {header : String × Bytes}
    {fault : ArgumentFault} (h : Offends before header.1 fault) :
    ¬ Admissible (before ++ header :: after) := by
  intro hadmissible
  cases h with
  | unsignable hname =>
    exact hname (hadmissible.signable header (List.mem_append_right _ List.mem_cons_self))
  | duplicate _ earlier hm hkey =>
    have hdistinct := (List.pairwise_append.mp hadmissible.distinct).2.2
    exact hdistinct earlier hm header List.mem_cons_self hkey

theorem FirstOffence.not_admissible {headers : List (String × Bytes)} {fault : ArgumentFault}
    (h : FirstOffence headers fault) : ¬ Admissible headers := by
  obtain ⟨before, header, after, rfl, -, hoffends⟩ := h
  exact hoffends.not_admissible

/-- later headers do not matter -/
theorem FirstOffence.append {headers : List (String × Bytes)} {fault : ArgumentFault}
    (h : FirstOffence headers fault) (more : List (String × Bytes)) :
    FirstOffence (headers ++ more) fault := by
  obtain ⟨before, header, after, rfl, hadmissible, hoffends⟩ := h
  refine ⟨before, header, after ++ more, ?_, hadmissible, hoffends⟩
  rw [List.append_assoc, List.cons_append]

/-- the first offence is where the headers before it end -/
theorem FirstOffence.unique {headers : List (String × Bytes)} {fault fault' : ArgumentFault}
    (h : FirstOffence headers fault) (h' : FirstOffence headers fault') : fault = fault' := by
  obtain ⟨before, header, after, rfl, hadmissible, hoffends⟩ := h
  obtain ⟨before', header', after', heq, hadmissible', hoffends'⟩ := h'
  rcases List.append_eq_append_iff.mp heq with ⟨between, rfl, hrest⟩ | ⟨between, rfl, hrest⟩
  · cases between with
    | nil =>
      obtain ⟨rfl, -⟩ := List.cons.inj hrest
      rw [List.append_nil] at hoffends'
      exact hoffends.fault_unique hoffends'
    | cons first between =>
      obtain ⟨rfl, -⟩ := List.cons.inj hrest
      exact absurd hadmissible' hoffends.not_admissible
  · cases between with
    | nil =>
      obtain ⟨rfl, -⟩ := List.cons.inj hrest
      rw [List.append_nil] at hoffends
      exact hoffends.fault_unique hoffends'
    | cons first between =>
      obtain ⟨rfl, -⟩ := List.cons.inj hrest
      exact absurd hadmissible hoffends'.not_admissible

/-! ## what a signer holds -/

/-- a signer holds the headers that were added, or the fault of the first that it did not take -/
inductive Latched (s : Signer) (headers : List (String × Bytes)) : Prop where
  | clean (hfault : s.fault? = none) (hadmissible : Admissible headers)
      (htable : s.headers.toList = trimmed headers) (hindexed : s.headers.Indexed)
  | faulty (fault : ArgumentFault) (hfault : s.fault? = some (.invalidArgument fault))
      (hfirst : FirstOffence headers fault)

theorem latched_new (kid : String) : Latched (new kid) [] :=
  .clean rfl admissible_nil rfl HeaderTable.indexed_empty

/-- other values than the headers do not matter -/
theorem latched_of_eq (s s' : Signer) (headers : List (String × Bytes))
    (hheaders : s'.headers = s.headers) (hfault? : s'.fault? = s.fault?) (hs : Latched s headers) :
    Latched s' headers := by
  cases hs with
  | clean hfault hadmissible htable hindexed =>
    refine .clean (hfault?.trans hfault) hadmissible ?_ ?_
    · rw [hheaders]
      exact htable
    · rw [hheaders]
      exact hindexed
  | faulty fault hfault hfirst => exact .faulty fault (hfault?.trans hfault) hfirst

section
variable {table : HeaderTable} {headers : List (String × Bytes)}
  (htable : table.toList = trimmed headers) (hindexed : table.Indexed)
include htable hindexed

theorem contains_iff_of_trimmed (name : String) :
    table.contains name = true ↔ ∃ h ∈ headers, HeaderTable.key h.1 = HeaderTable.key name := by
  rw [hindexed.contains_iff, htable]
  constructor
  · rintro ⟨e, he, hkey⟩
    obtain ⟨h, hm, rfl⟩ := List.mem_map.mp he
    exact ⟨h, hm, (HeaderTable.key_trim h.1).symm.trans hkey⟩
  · rintro ⟨h, hm, hkey⟩
    exact ⟨_, List.mem_map_of_mem hm, (HeaderTable.key_trim h.1).trans hkey⟩

/-- a table takes a header or finds what is wrong with it -/
theorem extend_cases (name : String) (value : Bytes) (hadmissible : Admissible headers) :
    (∃ table', extend table name value = .ok table' ∧ Admissible (headers ++ [(name, value)]) ∧
        table'.toList = trimmed (headers ++ [(name, value)]) ∧ table'.Indexed) ∨
      ∃ fault, extend table name value = .error (.invalidArgument fault) ∧
        Offends headers name fault := by
  unfold extend
  by_cases hname : Signable name
  · rw [if_pos hname]
    cases hcontains : table.contains name with
    | true =>
      obtain ⟨header, hm, hkey⟩ := (contains_iff_of_trimmed htable hindexed name).mp hcontains
      refine Or.inr ⟨_, ?_, .duplicate hname header hm hkey⟩
      rw [HeaderTable.insertNew, if_pos hcontains]
    | false =>
      have hnew : table.insertNew name value = .ok (table.insert name value) :=
        if_neg (by rw [hcontains]; exact Bool.false_ne_true)
      refine Or.inl ⟨_, hnew, ⟨?_, ?_⟩, ?_, HeaderTable.indexed_insert hindexed name value⟩
      · exact List.forall_mem_append.mpr
          ⟨hadmissible.signable, List.forall_mem_singleton.mpr hname⟩
      · refine List.pairwise_append.mpr
          ⟨hadmissible.distinct, List.pairwise_singleton _ _, fun header hm last hlast hkey => ?_⟩
        obtain rfl := List.mem_singleton.mp hlast
        have hthere := (contains_iff_of_trimmed htable hindexed name).mpr ⟨header, hm, hkey⟩
        exact Bool.false_ne_true (hcontains.symm.trans hthere)
      · rw [HeaderTable.toList_insertNew _ _ _ _ hnew, htable, trimmed_append]
        rfl
  · rw [if_neg hname]
    exact Or.inr ⟨_, rfl, .unsignable hname⟩

end

/-- **A header is taken or is the first offence; a fault stays.** -/
theorem latched_addHeader (s : Signer) (headers : List (String × Bytes)) (name : String)
    (value : Bytes) (hs : Latched s headers) :
    Latched (s.addHeader name value) (headers ++ [(name, value)]) := by
  cases hs with
  | clean hfault hadmissible htable hindexed =>
    rcases extend_cases htable hindexed name value hadmissible with
      ⟨table, hextend, hadmissible', htable', hindexed'⟩ | ⟨fault, hextend, hoffends⟩
    · simp only [addHeader, hextend]
      exact .clean hfault hadmissible' htable' hindexed'
    · simp only [addHeader, hextend]
      refine .faulty fault ?_ ⟨headers, (name, value), [], rfl, hadmissible, hoffends⟩
      rw [hfault, Option.none_or]
  | faulty fault hfault hfirst =>
    refine .faulty fault ?_ (hfirst.append _)
    unfold addHeader
    cases extend s.headers name value with
    | ok table => exact hfault
    | error e =>
      show s.fault?.or (some e) = _
      rw [hfault, Option.some_or]

/-- **A signer holds the headers of its calls, or their first offence.** -/
theorem latched_applyAll_new (kid : String) (calls : List Call) :
    Latched ((new kid).applyAll calls) (added calls) :=
  invariant_applyAll latched_addHeader latched_of_eq (latched_new kid) calls

/-- what a signer without a fault has in its table -/
structure Collected (s : Signer) (headers : List (String × Bytes)) : Prop where
  toList_eq : s.headers.toList = trimmed headers
  signable : ∀ h ∈ headers, Signable h.1

theorem collected_applyAll_new (kid : String) (calls : List Call)
    (hfault : ((new kid).applyAll calls).fault? = none) :
    Collected ((new kid).applyAll calls) (added calls) := by
  cases latched_applyAll_new kid calls with
  | clean _ hadmissible htable => exact ⟨htable, hadmissible.signable⟩
  | faulty fault hfault' => cases hfault.symm.trans hfault'

theorem Signable.listable {name : String} (h : Signable name) :
    SignedNames.Listable (Text.trim name) where
  trimmed := by rw [Text.toList_trim, Text.trimChars_trimChars]
  ne_nil := by
    rw [Text.toList_trim]
    exact h.1
  no_comma := by
    rw [Text.toList_trim]
    exact fun hm => h.2 (Text.mem_of_mem_trimChars _ _ hm)

/-- the names of a signer, read back from its claims -/
theorem Collected.split_join {s : Signer} {headers : List (String × Bytes)}
    (h : Collected s headers) : SignedNames.split (SignedNames.join s.headers.names)
      = (trimmed headers).map (·.1) := by
  rw [HeaderTable.names, h.toList_eq]
  apply SignedNames.split_join
  intro name hname
  obtain ⟨header, hheader, rfl⟩ := List.mem_map.mp hname
  obtain ⟨original, horiginal, rfl⟩ := List.mem_map.mp hheader
  exact (h.signable original horiginal).listable

/-! ## preparing -/

theorem prepare_of_fault {s : Signer} {e : Error} (h : s.fault? = some e) :
    s.prepare = .error e := by
  rw [prepare, h]

theorem prepare_of_no_fault {s : Signer} (h : s.fault? = none) :
    s.prepare = (do
      let method ← checkMethod s.method
      let path ← checkPath s.path
      return ⟨s.claims.encode,
        signingInput s.claims.encode (Payload.build method path s.headers.toList s.body)⟩) := by
  rw [prepare, h]

theorem prepare_eq_ok_iff (s : Signer) (p : Prepared) :
    s.prepare = .ok p ↔ s.fault? = none ∧ ValidMethod s.method ∧
      ∃ path, s.path = some path ∧ ValidPath path ∧
        p = ⟨s.claims.encode,
          signingInput s.claims.encode
            (Payload.build s.method path s.headers.toList s.body)⟩ := by
  unfold prepare
  cases s.fault? with
  | some e => exact iff_of_false (fun h => by cases h) fun h => by cases h.1
  | none =>
    constructor
    · intro h
      obtain ⟨method, hmethod, h⟩ := (bind_eq_ok_iff _ _ _).mp h
      obtain ⟨path, hpath, h⟩ := (bind_eq_ok_iff _ _ _).mp h
      obtain ⟨hvalid, rfl⟩ := (checkMethod_eq_ok_iff _ _).mp hmethod
      obtain ⟨hsome, hvalidPath⟩ := (checkPath_eq_ok_iff _ _).mp hpath
      exact ⟨rfl, hvalid, path, hsome, hvalidPath, (Except.ok.inj h).symm⟩
    · rintro ⟨-, hvalid, path, hsome, hvalidPath, rfl⟩
      apply (bind_eq_ok_iff _ _ _).mpr
      refine ⟨s.method, (checkMethod_eq_ok_iff _ _).mpr ⟨hvalid, rfl⟩, ?_⟩
      apply (bind_eq_ok_iff _ _ _).mpr
      exact ⟨path, (checkPath_eq_ok_iff _ _).mpr ⟨hsome, hvalidPath⟩, rfl⟩

theorem prepare_of_path {s : Signer} {p : Prepared} {path : String} (hp : s.prepare = .ok p)
    (hsome : s.path = some path) :
    ValidMethod s.method ∧ ValidPath path ∧
      p = ⟨s.claims.encode,
        signingInput s.claims.encode (Payload.build s.method path s.headers.toList s.body)⟩ := by
  obtain ⟨-, hvalid, path', hsome', hvalidPath, hprepared⟩ := (prepare_eq_ok_iff s p).mp hp
  obtain rfl := Option.some.inj (hsome.symm.trans hsome')
  exact ⟨hvalid, hvalidPath, hprepared⟩

/-! ## signing -/

section
variable {m : Type → Type} [Monad m] {s : Signer}

theorem sign_of_error {e : Error} (h : s.prepare = .error e)
    (strategy : String → m (Except String String)) :
    s.sign strategy = pure (.error e) := by
  rw [sign, h]

theorem sign_of_ok {p : Prepared} (h : s.prepare = .ok p)
    (strategy : String → m (Except String String)) :
    s.sign strategy = (do
      let answer ← strategy p.signingInput
      pure (match answer with
        | .ok text => .ok (Token.compact p.encodedHeader text)
        | .error source => .error (.signing source))) := by
  rw [sign, h]
  refine congrArg (strategy p.signingInput >>= ·) (funext fun answer => ?_)
  cases answer <;> rfl

end

theorem run_sign_eq_ok_iff (s : Signer) (answer : String → Except String String) (token : String) :
    Id.run (s.sign (m := Id) answer) = .ok token ↔ ∃ p text, s.prepare = .ok p ∧
      answer p.signingInput = .ok text ∧ token = Token.compact p.encodedHeader text := by
  unfold sign
  cases s.prepare with
  | error e =>
    refine iff_of_false (fun h => by cases h) ?_
    rintro ⟨p, text, h, -⟩
    cases h
  | ok p =>
    show Id.run (answer p.signingInput >>= fun text => _) = _ ↔ _
    cases ha : answer p.signingInput with
    | error source =>
      constructor
      · intro h
        have hfailed : Except.error (Error.signing source) = Except.ok token := h
        cases hfailed
      · rintro ⟨p', text, hp, ha', -⟩
        obtain rfl := Except.ok.inj hp
        cases ha.symm.trans ha'
    | ok text =>
      constructor
      · intro h
        exact ⟨p, text, rfl, ha, (Except.ok.inj h).symm⟩
      · rintro ⟨p', text', hp, ha', rfl⟩
        obtain rfl := Except.ok.inj hp
        obtain rfl := Except.ok.inj (ha.symm.trans ha')
        rfl

/-- a strategy that keeps a record of what it is asked to sign -/
def recording (answer : String → Except String String) (input : String) :
    StateM (List String) (Except String String) := fun asked => (answer input, asked ++ [input])

/-- a strategy is asked for the one signing input, or for nothing -/
theorem run_sign_recording (s : Signer) (answer : String → Except String String)
    (asked : List String) :
    (s.sign (recording answer)).run asked
      = (Id.run (s.sign (m := Id) answer),
          asked ++ (s.prepare.toOption.map Prepared.signingInput).toList) := by
  unfold sign
  cases s.prepare with
  | error e =>
    show (_, asked) = _
    rw [show (Except.error e : Except Error Prepared).toOption = none from rfl, Option.map_none,
      Option.toList_none, List.append_nil]
    rfl
  | ok p =>
    have hasked : (recording answer p.signingInput).run asked
        = pure (answer p.signingInput, asked ++ [p.signingInput]) := rfl
    show (recording answer p.signingInput >>= fun text => _).run asked
      = (Id.run (answer p.signingInput >>= fun text => _), _)
    rw [StateT.run_bind, hasked, pure_bind]
    cases ha : answer p.signingInput with
    | error source => rfl
    | ok text => rfl

end RequestSigning.Signer
