import RequestSigning.Proofs.Signer

/-!
# Signers and the order of calls

Method, path, body and key set URL are those of the last call that sets them (`exists_applyAll_eq`);
the headers of all calls count, in their order.  So there are two sorts of sequences of calls, and
each sequence is of one of them (`ready_iff_not_refused`):

* `Ready`    the headers can be signed together, and method and path stand in a request line;
* `Refused`  the first header that is not taken is the error, else the method, else the path.

`prepare_of_ready` and `prepare_of_refused` say what a signer prepares; `sign_applyAll_new` says
what it does with a strategy.
-/

namespace RequestSigning.Signer

/-! ## the last values -/

def Call.method? : Call → Option String
  | .method value => some value
  | _ => none

def Call.path? : Call → Option String
  | .path value => some value
  | _ => none

def Call.body? : Call → Option Bytes
  | .body value => some value
  | _ => none

def Call.jku? : Call → Option String
  | .jku value => some value
  | _ => none

/-- the last of the values of one sort that calls set -/
def last {α : Type} (part : Call → Option α) (calls : List Call) : Option α :=
  (calls.filterMap part).getLast?

def lastMethod (calls : List Call) : String := (last Call.method? calls).getD defaultMethod

def lastBody (calls : List Call) : Bytes := (last Call.body? calls).getD []

theorem last_cons {α : Type} (part : Call → Option α) (call : Call) (calls : List Call) :
    last part (call :: calls) = (last part calls).or (part call) := by
  cases h : part call with
  | none => rw [last, List.filterMap_cons_none h, Option.or_none, last]
  | some a => rw [last, List.filterMap_cons_some h, List.getLast?_cons, last, Option.or_some]

/-- a call sets its own value and leaves the others alone -/
theorem exists_apply_eq (s : Signer) (call : Call) :
    ∃ table fault?, s.apply call =
      { kid := s.kid
        method := call.method?.getD s.method
        path := call.path?.or s.path
        headers := table
        body := call.body?.getD s.body
        jku := call.jku?.or s.jku
        fault? } := by
  cases call with
  | header name value => exact exists_addHeaders_eq s [(name, value)]
  | headers more => exact exists_addHeaders_eq s more
  | method | path | body | jku => exact ⟨s.headers, s.fault?, rfl⟩

/-- **The last value of each sort is the one that counts.** -/
theorem exists_applyAll_eq (s : Signer) (calls : List Call) :
    ∃ table fault?, s.applyAll calls =
      { kid := s.kid
        method := (last Call.method? calls).getD s.method
        path := (last Call.path? calls).or s.path
        headers := table
        body := (last Call.body? calls).getD s.body
        jku := (last Call.jku? calls).or s.jku
        fault? } := by
  induction calls generalizing s with
  | nil => exact ⟨s.headers, s.fault?, rfl⟩
  | cons call calls ih =>
    obtain ⟨table, fault?, hrun⟩ := ih (s.apply call)
    obtain ⟨_, _, hstep⟩ := exists_apply_eq s call
    refine ⟨table, fault?, ?_⟩
    show (s.apply call).applyAll calls = _
    rw [hrun, hstep]
    simp only [last_cons, Option.getD_or, Option.or_assoc]

theorem exists_applyAll_new_eq (kid : String) (calls : List Call) :
    ∃ table fault?, (new kid).applyAll calls =
      { kid
        method := lastMethod calls
        path := last Call.path? calls
        headers := table
        body := lastBody calls
        jku := last Call.jku? calls
        fault? } := by
  obtain ⟨table, fault?, h⟩ := exists_applyAll_eq (new kid) calls
  refine ⟨table, fault?, ?_⟩
  rw [h]
  simp only [new, lastMethod, lastBody, Option.or_none]

/-! ## the two sorts of sequences -/

/-- calls that a signing input is made of, with the path of the last that sets one -/
structure Ready (calls : List Call) (path : String) : Prop where
  admissible : Admissible (added calls)
  method : ValidMethod (lastMethod calls)
  path_eq : last Call.path? calls = some path
  validPath : ValidPath path

/-- why calls do not make a signing input -/
inductive Refused (calls : List Call) : ArgumentFault → Prop where
  | header (fault : ArgumentFault) (h : FirstOffence (added calls) fault) : Refused calls fault
  | method (hadmissible : Admissible (added calls)) (h : ¬ ValidMethod (lastMethod calls)) :
      Refused calls (.invalidMethod (lastMethod calls))
  | pathMissing (hadmissible : Admissible (added calls)) (hmethod : ValidMethod (lastMethod calls))
      (h : last Call.path? calls = none) : Refused calls .pathMissing
  | pathNotAbsolute (hadmissible : Admissible (added calls))
      (hmethod : ValidMethod (lastMethod calls)) (path : String)
      (hpath : last Call.path? calls = some path) (h : ¬ ValidPath path) :
      Refused calls (.pathNotAbsolute path)

theorem Ready.not_refused {calls : List Call} {path : String} (h : Ready calls path)
    {fault : ArgumentFault} : ¬ Refused calls fault := by
  rintro (⟨_, hfirst⟩ | ⟨-, hmethod⟩ | ⟨-, -, hnone⟩ | ⟨-, -, other, hother, hpath⟩)
  · exact hfirst.not_admissible h.admissible
  · exact hmethod h.method
  · cases hnone.symm.trans h.path_eq
  · obtain rfl := Option.some.inj (hother.symm.trans h.path_eq)
    exact hpath h.validPath

theorem ready_or_refused (calls : List Call) :
    (∃ path, Ready calls path) ∨ ∃ fault, Refused calls fault := by
  -- any signer tells whether the headers can be signed together
  cases latched_applyAll_new "" calls with
  | faulty fault _ hfirst => exact Or.inr ⟨fault, .header fault hfirst⟩
  | clean _ hadmissible =>
    by_cases hmethod : ValidMethod (lastMethod calls)
    · cases hlast : last Call.path? calls with
      | none => exact Or.inr ⟨_, .pathMissing hadmissible hmethod hlast⟩
      | some path =>
        by_cases hpath : ValidPath path
        · exact Or.inl ⟨path, hadmissible, hmethod, hlast, hpath⟩
        · exact Or.inr ⟨_, .pathNotAbsolute hadmissible hmethod path hlast hpath⟩
    · exact Or.inr ⟨_, .method hadmissible hmethod⟩

theorem ready_iff_not_refused (calls : List Call) :
    (∃ path, Ready calls path) ↔ ¬ ∃ fault, Refused calls fault := by
  constructor
  · rintro ⟨path, hready⟩ ⟨fault, hrefused⟩
    exact hready.not_refused hrefused
  · exact (ready_or_refused calls).resolve_right

/-! ## what is prepared -/

/-- the claims that calls make -/
def claimsOf (kid : String) (calls : List Call) : Claims :=
  .ofSigner kid ((added calls).map fun h => Text.trim h.1) (last Call.jku? calls)

/-- the payload that calls make, with the path of the last that sets one -/
def payloadOf (calls : List Call) (path : String) : Bytes :=
  Payload.build (lastMethod calls) path (trimmed (added calls)) (lastBody calls)

section
variable {kid : String} {calls : List Call}

theorem prepare_of_ready {path : String} (h : Ready calls path) :
    ((new kid).applyAll calls).prepare =
      .ok ⟨(claimsOf kid calls).encode,
        signingInput (claimsOf kid calls).encode (payloadOf calls path)⟩ := by
  obtain ⟨table, fault?, hrun⟩ := exists_applyAll_new_eq kid calls
  cases latched_applyAll_new kid calls with
  | faulty fault _ hfirst => exact absurd h.admissible hfirst.not_admissible
  | clean hfault _ htable =>
    rw [hrun] at hfault htable ⊢
    have hnames := names_of_trimmed htable
    refine (prepare_eq_ok_iff _ _).mpr ⟨hfault, h.method, path, h.path_eq, h.validPath, ?_⟩
    simp only [claims, claimsOf, payloadOf, hnames, htable]

theorem prepare_of_refused {fault : ArgumentFault} (h : Refused calls fault) :
    ((new kid).applyAll calls).prepare = .error (.invalidArgument fault) := by
  obtain ⟨table, fault?, hrun⟩ := exists_applyAll_new_eq kid calls
  cases latched_applyAll_new kid calls with
  | faulty first hfault hfirst =>
    -- a fault of a header comes before all others
    have heq : fault = first := by
      rcases h with ⟨_, hfirst'⟩ | ⟨hadmissible⟩ | ⟨hadmissible⟩ | ⟨hadmissible⟩
      · exact hfirst'.unique hfirst
      all_goals exact absurd hadmissible hfirst.not_admissible
    rw [prepare_of_fault hfault, heq]
  | clean hfault hadmissible =>
    rw [prepare_of_no_fault hfault, hrun]
    rcases h with ⟨_, hfirst⟩ | ⟨-, hmethod⟩ | ⟨-, hmethod, hnone⟩ | ⟨-, hmethod, path, hpath, hinvalid⟩
    · exact absurd hadmissible hfirst.not_admissible
    · rw [checkMethod, if_neg hmethod]
      rfl
    · rw [checkMethod, if_pos hmethod, ok_bind, hnone]
      rfl
    · rw [checkMethod, if_pos hmethod, ok_bind, hpath, checkPath, if_neg hinvalid]
      rfl

theorem ready_of_prepare {p : Prepared} (h : ((new kid).applyAll calls).prepare = .ok p) :
    ∃ path, Ready calls path ∧ p = ⟨(claimsOf kid calls).encode,
      signingInput (claimsOf kid calls).encode (payloadOf calls path)⟩ := by
  rcases ready_or_refused calls with ⟨path, hready⟩ | ⟨fault, hrefused⟩
  · rw [prepare_of_ready hready] at h
    exact ⟨path, hready, (Except.ok.inj h).symm⟩
  · rw [prepare_of_refused hrefused] at h
    cases h

theorem refused_of_prepare {e : Error} (h : ((new kid).applyAll calls).prepare = .error e) :
    ∃ fault, Refused calls fault ∧ e = .invalidArgument fault := by
  rcases ready_or_refused calls with ⟨path, hready⟩ | ⟨fault, hrefused⟩
  · rw [prepare_of_ready hready] at h
    cases h
  · rw [prepare_of_refused hrefused] at h
    exact ⟨fault, hrefused, (Except.error.inj h).symm⟩

/-! ## what a strategy is asked -/

/-- **What counts of a sequence of calls is the last value of each sort and the headers in their
order.**  Either these make a signing input.  Then a strategy is asked for it once; its answer is
the last segment of a token of which the claims are the first, and its failure is passed on.  Or
the first header that is not taken is the error, or else the method is, or else the path, and a
strategy is not asked. -/
theorem sign_applyAll_new {m : Type → Type} [Monad m] (kid : String) (calls : List Call)
    (strategy : String → m (Except String String)) :
    ((∃ path, Ready calls path) ↔ ¬ ∃ fault, Refused calls fault) ∧
    (∀ fault, Refused calls fault →
      ((new kid).applyAll calls).sign strategy = pure (.error (.invalidArgument fault))) ∧
    (∀ path, Ready calls path →
      ((new kid).applyAll calls).sign strategy = (do
        let answer ← strategy
          ((claimsOf kid calls).encode ++ "." ++ Base64.encode (payloadOf calls path))
        pure (match answer with
          | .ok text => .ok (Token.compact (claimsOf kid calls).encode text)
          | .error source => .error (.signing source)))) ∧
    ∀ text, Text.splitOn '.' (Token.compact (claimsOf kid calls).encode text).toList
      = (claimsOf kid calls).encode.toList :: [] :: Text.splitOn '.' text.toList := by
  refine ⟨ready_iff_not_refused calls, ?_, ?_, ?_⟩
  · intro fault hrefused
    exact sign_of_error (prepare_of_refused hrefused) strategy
  · intro path hready
    exact sign_of_ok (prepare_of_ready hready) strategy
  · intro text
    rw [Token.toList_compact, Text.splitOn_append '.' _ _ (Token.point_not_mem_encode _),
      Text.splitOn_cons_self]

end

/-- calls of all sorts, with values that later calls replace -/
def interleavedCalls : List Call :=
  [.header "X-B " [byte '2'], .path "b", .method "put it", .headers [("x-a", [byte '1'])],
    .body [byte '0'], .path "/c", .jku "u", .body [byte '9'], .method "put"]

/-- the same with two names that are not taken, between values that are right -/
def offendingCalls : List Call :=
  interleavedCalls ++ [.header "x-b" [], .method "get", .header "x,y" [], .path "/d"]

theorem sign_interleavedCalls :
    (((new "k").applyAll interleavedCalls).sign (recording fun _ => .ok "AA")).run []
      = (.ok (Token.compact (claimsOf "k" interleavedCalls).encode "AA"),
          [(claimsOf "k" interleavedCalls).encode ++ "." ++ Base64.encode (Payload.build "put" "/c"
            [("X-B", [byte '2']), ("x-a", [byte '1'])] [byte '9'])]) ∧
    (((new "k").applyAll offendingCalls).sign (recording fun _ => .ok "AA")).run []
      = (.error (.invalidArgument (.duplicateHeader "x-b")), []) := by
  have hadmissible : Admissible (added interleavedCalls) := ⟨by decide, by decide⟩
  have hready : Ready interleavedCalls "/c" := ⟨hadmissible, by decide, rfl, by decide⟩
  have hduplicate : Offends (added interleavedCalls) "x-b" (.duplicateHeader (Text.trim "x-b")) :=
    .duplicate (by decide) ("X-B ", [byte '2']) List.mem_cons_self (by decide)
  have hrefused : Refused offendingCalls (.duplicateHeader (Text.trim "x-b")) :=
    .header _ ⟨added interleavedCalls, ("x-b", []), [("x,y", [])], rfl, hadmissible, hduplicate⟩
  constructor
  · obtain ⟨-, -, hsign, -⟩ := sign_applyAll_new "k" interleavedCalls (recording fun _ => .ok "AA")
    rw [hsign "/c" hready]
    rfl
  · obtain ⟨-, hsign, -, -⟩ := sign_applyAll_new "k" offendingCalls (recording fun _ => .ok "AA")
    rw [hsign _ hrefused]
    rfl

end RequestSigning.Signer
