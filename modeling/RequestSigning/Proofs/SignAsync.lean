import RequestSigning.Proofs.SignerCalls

/-!
# Strategies that answer later

`sign` and `signAsync` prepare the same signing input, and each of them asks its strategy and makes
a token of the answer on its own.  `outcome` is what they make of it.

* `signAsync_of_ok`, `signAsync_of_error`  what `signAsync` does with a prepared signer;
* `map_await_signAsync`     strategies with the same answers make the same tokens, in any monad;
* `signAsync_applyAll_new`  what a strategy is asked, and how often, for any calls.
-/

namespace RequestSigning.Signer

/-- the token with the answer of a strategy, or its failure -/
def outcome (encodedHeader : String) : Except String String → Except Error String
  | .ok text => .ok (Token.compact encodedHeader text)
  | .error source => .error (.signing source)

section
variable {m : Type → Type} [Monad m] {s : Signer}

theorem signAsync_of_error {e : Error} (h : s.prepare = .error e)
    (strategy : String → m (Future (Except String String))) :
    s.signAsync strategy = pure (.ready (.error e)) := by
  rw [signAsync, h]

theorem signAsync_of_ok {p : Prepared} (h : s.prepare = .ok p)
    (strategy : String → m (Future (Except String String))) :
    s.signAsync strategy = (do
      let answer ← strategy p.signingInput
      pure (answer.map (outcome p.encodedHeader))) := by
  have houtcome : (fun signature : Except String String =>
      (signature.mapError Error.signing).map (Token.compact p.encodedHeader))
        = outcome p.encodedHeader := by
    funext signature
    cases signature <;> rfl
  rw [signAsync, h, ← houtcome]

/-- **To wait for a token is to wait for the signature.**  Two strategies of which one answers at
once what the other one answers later, with the same effects, make the same token. -/
theorem map_await_signAsync [LawfulMonad m] (s : Signer)
    {strategy : String → m (Except String String)}
    {later : String → m (Future (Except String String))}
    (hlater : ∀ input, Future.await <$> later input = strategy input) :
    Future.await <$> s.signAsync later = s.sign strategy := by
  cases h : s.prepare with
  | error e =>
    rw [signAsync_of_error h, sign_of_error h, map_pure]
    rfl
  | ok p =>
    rw [signAsync_of_ok h, sign_of_ok h, ← hlater, map_bind, bind_map_left]
    refine congrArg (later p.signingInput >>= ·) (funext fun answer => ?_)
    rw [map_pure, Future.await_map]
    rfl

end

/-! ## what the strategies are asked -/

/-- a strategy that answers later, with a record of what it is asked to sign -/
def recordingLater (later : String → Future (Except String String)) (input : String) :
    StateM (List String) (Future (Except String String)) :=
  fun asked => (later input, asked ++ [input])

theorem map_await_recordingLater {f : String → Except String String}
    {later : String → Future (Except String String)}
    (hlater : ∀ input, (later input).await = f input) (input : String) :
    Future.await <$> recordingLater later input = recording f input := by
  funext asked
  show ((later input).await, asked ++ [input]) = (f input, asked ++ [input])
  rw [hlater]

/-- a run with a strategy that answers later shows the run with one that answers at once -/
theorem run_sign_of_run_signAsync {f : String → Except String String}
    {later : String → Future (Except String String)}
    (hlater : ∀ input, (later input).await = f input) {s : Signer} {asked log : List String}
    {answer : Future (Except Error String)}
    (h : (s.signAsync (recordingLater later)).run asked = (answer, log)) :
    (s.sign (recording f)).run asked = (answer.await, log) := by
  rw [← map_await_signAsync s (map_await_recordingLater hlater), StateT.run_map, h]
  rfl

/-- **Signing with an answer that comes later agrees with signing at once.**  Take a function of
signing inputs, and futures that come to its values, each after as many vain questions as it likes.
For any calls the token or the error is the same, and both strategies are asked the same: if the
calls make a signing input, this one once, and nothing otherwise.  A token is there as soon as the
signature is, and an error of the calls at once. -/
theorem signAsync_applyAll_new (kid : String) (calls : List Call)
    (f : String → Except String String) (later : String → Future (Except String String))
    (hlater : ∀ input, (later input).await = f input) (asked : List String) :
    ∃ (answer : Future (Except Error String)) (questions : List String),
      (((new kid).applyAll calls).signAsync (recordingLater later)).run asked
        = (answer, asked ++ questions) ∧
      (((new kid).applyAll calls).sign (recording f)).run asked
        = (answer.await, asked ++ questions) ∧
      ((∃ path, Ready calls path) ↔ ¬ ∃ fault, Refused calls fault) ∧
      (∀ fault, Refused calls fault →
        questions = [] ∧ answer = .ready (.error (.invalidArgument fault))) ∧
      ∀ path, Ready calls path → ∃ input,
        input = (claimsOf kid calls).encode ++ "." ++ Base64.encode (payloadOf calls path) ∧
        questions = [input] ∧ answer.delay = (later input).delay ∧
        answer.await = outcome (claimsOf kid calls).encode (f input) := by
  rcases ready_or_refused calls with ⟨path, hready⟩ | ⟨fault, hrefused⟩
  · have hprepare : ((new kid).applyAll calls).prepare = .ok _ := prepare_of_ready hready
    have hrun := congrArg (StateT.run · asked) (signAsync_of_ok hprepare (recordingLater later))
    refine ⟨_, [_], hrun, run_sign_of_run_signAsync hlater hrun, ready_iff_not_refused calls,
      fun fault hrefused => absurd hrefused hready.not_refused, fun path' hready' => ?_⟩
    obtain rfl := Option.some.inj (hready.path_eq.symm.trans hready'.path_eq)
    refine ⟨_, rfl, rfl, Future.delay_map _ _, ?_⟩
    rw [Future.await_map, hlater]
    rfl
  · have hprepare : ((new kid).applyAll calls).prepare = .error _ := prepare_of_refused hrefused
    have hrun : (((new kid).applyAll calls).signAsync (recordingLater later)).run asked
        = (.ready (.error (.invalidArgument fault)), asked ++ []) := by
      rw [signAsync_of_error hprepare, List.append_nil]
      rfl
    refine ⟨_, [], hrun, run_sign_of_run_signAsync hlater hrun, ready_iff_not_refused calls,
      fun fault' hrefused' => ⟨rfl, ?_⟩, fun path hready => absurd hrefused hready.not_refused⟩
    -- the calls are refused for one fault only, the one that is prepared
    have hsame := hprepare.symm.trans (prepare_of_refused hrefused')
    rw [Except.error.inj hsame]

/-- a strategy that gives the signing input back, at the third question -/
def drowsy (input : String) : Future (Except String String) :=
  .pending (.pending (.ready (.ok input)))

def waitingCalls : List Call :=
  [.headers [("X-A ", [byte '1'])], .path "/a", .method "put", .body [byte 'b']]

/-- what is signed for these calls -/
def waitingInput : String :=
  (claimsOf "k" waitingCalls).encode ++ "."
    ++ Base64.encode (Payload.build "put" "/a" [("X-A", [byte '1'])] [byte 'b'])

theorem signAsync_waitingCalls :
    (∃ answer,
      (((new "k").applyAll waitingCalls).signAsync (recordingLater drowsy)).run []
        = (answer, [waitingInput]) ∧
      (((new "k").applyAll waitingCalls).sign (recording .ok)).run []
        = (answer.await, [waitingInput]) ∧
      answer.delay = 2 ∧
      answer.await = .ok (Token.compact (claimsOf "k" waitingCalls).encode waitingInput)) ∧
    (((new "k").applyAll (waitingCalls ++ [.path "a"])).signAsync (recordingLater drowsy)).run []
      = (.ready (.error (.invalidArgument (.pathNotAbsolute "a"))), []) := by
  have hready : Ready waitingCalls "/a" := ⟨⟨by decide, by decide⟩, by decide, rfl, by decide⟩
  have hrefused : Refused (waitingCalls ++ [.path "a"]) (.pathNotAbsolute "a") :=
    .pathNotAbsolute ⟨by decide, by decide⟩ (by decide) "a" rfl (by decide)
  constructor
  · obtain ⟨answer, questions, hasync, hsync, -, -, hasked⟩ :=
      signAsync_applyAll_new "k" waitingCalls .ok drowsy (fun _ => rfl) []
    obtain ⟨input, rfl, rfl, hdelay, hawait⟩ := hasked "/a" hready
    exact ⟨answer, hasync, hsync, hdelay, hawait⟩
  · obtain ⟨answer, questions, hasync, -, -, hnone, -⟩ :=
      signAsync_applyAll_new "k" (waitingCalls ++ [.path "a"]) .ok drowsy (fun _ => rfl) []
    obtain ⟨rfl, rfl⟩ := hnone _ hrefused
    exact hasync

end RequestSigning.Signer
