import RequestSigning.Proofs.Http.Signature
import RequestSigning.Proofs.SignerCalls

/-!
# Signing HTTP requests: what is asked, and what is changed

Signing looks up the first value of each name (`FirstValues`), hands method, path, body and these
headers to a signer, and puts the token into the request (`CarriesToken`).

* `signedHeaders_of_absent`  the first name without a value is the error, before all others;
* `exists_prepare_iff`       a signer takes the headers unless a name is listed twice;
* `carriesToken_of_eq_ok`    a token takes the place of those that were there, and of nothing else;
* `sign_of_withToken`        so a request can be signed again as if it had not been signed.

`sign_request` says what signing does with any strategy.
-/

namespace RequestSigning.Http

theorem isTokenChar_ne_comma (c : Char) (h : isTokenChar c = true) : c ≠ ',' := by
  rintro rfl
  exact absurd h (by decide)

theorem isAsciiBlank_of_isTokenChar (c : Char) (h : isTokenChar c = true) :
    isAsciiBlank c = false :=
  Text.forall_ascii (fun c => isTokenChar c = true → isAsciiBlank c = false) (by decide) c
    (isTokenChar_lt c h) h

theorem signable_of_isToken (s : String) (h : isToken s = true) : Signer.Signable s := by
  obtain ⟨hne, hall⟩ := (isToken_iff s).mp h
  constructor
  · rwa [← Text.toList_trim, trim_of_isToken s h]
  · intro hm
    exact isTokenChar_ne_comma ',' (hall ',' hm) rfl

theorem Method.validMethod (method : Method) : ValidMethod method.name := by
  obtain ⟨hne, hall⟩ := (isToken_iff method.name).mp method.valid
  refine ⟨hne, List.any_eq_false.mpr fun c hc hblank => ?_⟩
  exact Bool.false_ne_true ((isAsciiBlank_of_isTokenChar c (hall c hc)).symm.trans hblank)

namespace Request

/-! ## looking up -/

/-- a name under which a request has no value -/
def Absent (r : Request) (name : String) : Prop :=
  ∀ f, FieldName.ofText? name = some f → r.values f = []

/-- headers with the first values that a request has under their names -/
def FirstValues (r : Request) (headers : List (String × Bytes)) : Prop :=
  ∀ header ∈ headers, ∃ f value, FieldName.ofText? header.1 = some f ∧
    (r.values f).head? = some value ∧ header.2 = value.octets

theorem lookup?_eq (r : Request) (name : String) :
    r.lookup? name = (FieldName.ofText? name).bind fun f => (r.values f).head? :=
  congrArg _ (funext r.get?_eq_head?)

theorem absent_iff (r : Request) (name : String) : r.Absent name ↔ r.lookup? name = none := by
  rw [lookup?_eq, Option.bind_eq_none_iff]
  exact forall₂_congr fun f _ => List.head?_eq_none_iff.symm

instance (r : Request) (name : String) : Decidable (r.Absent name) :=
  decidable_of_iff _ (r.absent_iff name).symm

theorem signedHeader_of_absent {r : Request} {name : String} (h : r.Absent name) :
    r.signedHeader name = .error (.invalidArgument (.headerAbsent name)) := by
  unfold signedHeader
  rw [(r.absent_iff name).mp h]

theorem exists_signedHeader {r : Request} {name : String} (h : ¬ r.Absent name) :
    ∃ header, r.signedHeader name = .ok header := by
  rw [absent_iff] at h
  obtain ⟨value, hvalue⟩ := Option.ne_none_iff_exists'.mp h
  exact ⟨(name, value.octets), by unfold signedHeader; rw [hvalue]⟩

/-- **The first name without a value is the error.** -/
theorem signedHeaders_of_absent {r : Request} {before : List String} {name : String}
    (hbefore : ∀ earlier ∈ before, ¬ r.Absent earlier) (h : r.Absent name) (after : List String) :
    (before ++ name :: after).mapM r.signedHeader
      = .error (.invalidArgument (.headerAbsent name)) :=
  mapM_append_eq_error (fun earlier hm => exists_signedHeader (hbefore earlier hm))
    (signedHeader_of_absent h) after

theorem exists_signedHeaders {r : Request} {names : List String}
    (h : ∀ name ∈ names, ¬ r.Absent name) :
    ∃ headers, names.mapM r.signedHeader = .ok headers ∧ headers.map (·.1) = names ∧
      r.FirstValues headers := by
  obtain ⟨headers, hheaders⟩ := exists_mapM_eq_ok fun name hm => exists_signedHeader (h name hm)
  exact ⟨headers, hheaders, signedHeaders_eq_ok hheaders⟩

/-! ## what the signer is given -/

def signerCalls (r : Request) (headers : List (String × Bytes)) : List Signer.Call :=
  [.method r.method.name, .path r.target.path, .body r.body, .headers headers]

theorem signer_eq (r : Request) (kid : String) (headers : List (String × Bytes)) :
    r.signer kid headers = (Signer.new kid).applyAll (r.signerCalls headers) := rfl

theorem ready_signerCalls_iff (r : Request) (headers : List (String × Bytes)) (path : String) :
    Signer.Ready (r.signerCalls headers) path ↔
      path = r.target.path ∧ Signer.Admissible headers ∧ ValidPath r.target.path := by
  have hadded : Signer.added (r.signerCalls headers) = headers := added_signer r headers
  have hlast : Signer.last Signer.Call.path? (r.signerCalls headers) = some r.target.path := rfl
  constructor
  · intro hready
    obtain rfl := Option.some.inj (hready.path_eq.symm.trans hlast)
    exact ⟨rfl, hadded ▸ hready.admissible, hready.validPath⟩
  · rintro ⟨rfl, hadmissible, hpath⟩
    exact ⟨hadded.symm ▸ hadmissible, r.method.validMethod, hlast, hpath⟩

theorem FirstValues.isToken {r : Request} {headers : List (String × Bytes)}
    (h : r.FirstValues headers) {header : String × Bytes} (hm : header ∈ headers) :
    Http.isToken header.1 = true := by
  obtain ⟨f, -, hf, -⟩ := h header hm
  exact FieldName.isToken_of_ofText? header.1 f hf

section
variable {r : Request} {headers : List (String × Bytes)} (h : r.FirstValues headers)
include h

/-- the names of fields have no blanks at their ends -/
theorem FirstValues.trimmed_eq : Signer.trimmed headers = headers := by
  have hid : ∀ header ∈ headers, (Text.trim header.1, header.2) = id header := fun header hm =>
    Prod.ext (trim_of_isToken header.1 (h.isToken hm)) rfl
  rw [Signer.trimmed, List.map_congr_left hid, List.map_id]

theorem FirstValues.admissible_iff :
    Signer.Admissible headers ↔
      (headers.map (·.1)).Pairwise fun a b => ¬ Text.EqIgnoringCase a b := by
  have hkey : ∀ header ∈ headers, HeaderTable.key header.1 = Text.fold header.1 :=
    fun header hm => congrArg Text.fold (trim_of_isToken header.1 (h.isToken hm))
  rw [List.pairwise_map]
  constructor
  · intro hadmissible
    refine hadmissible.distinct.imp_of_mem fun {a b} ha hb hne heq => hne ?_
    rw [hkey a ha, hkey b hb, heq]
  · intro hdistinct
    refine ⟨fun header hm => signable_of_isToken header.1 (h.isToken hm), ?_⟩
    refine hdistinct.imp_of_mem fun {a b} ha hb hne heq => hne ?_
    rwa [hkey a ha, hkey b hb] at heq

theorem claimsOf_signerCalls (kid : String) :
    Signer.claimsOf kid (r.signerCalls headers) = .ofSigner kid (headers.map (·.1)) none := by
  have hnames : (headers.map fun header => Text.trim header.1) = headers.map (·.1) :=
    List.map_congr_left fun header hm => trim_of_isToken header.1 (h.isToken hm)
  rw [Signer.claimsOf, signerCalls, added_signer, hnames]
  rfl

theorem payloadOf_signerCalls (path : String) :
    Signer.payloadOf (r.signerCalls headers) path
      = Payload.build r.method.name path headers r.body := by
  rw [Signer.payloadOf, signerCalls, added_signer, h.trimmed_eq]
  rfl

/-- **A signer takes the headers of a request unless a name is listed twice.** -/
theorem exists_prepare_iff (kid : String) :
    (∃ p, (r.signer kid headers).prepare = .ok p) ↔
      ((headers.map (·.1)).Pairwise fun a b => ¬ Text.EqIgnoringCase a b) ∧
        ValidPath r.target.path := by
  rw [← h.admissible_iff]
  constructor
  · rintro ⟨p, hp⟩
    obtain ⟨path, hready, -⟩ := Signer.ready_of_prepare (signer_eq r kid headers ▸ hp)
    exact ((ready_signerCalls_iff r headers path).mp hready).2
  · intro hvalid
    exact ⟨_, Signer.prepare_of_ready ((ready_signerCalls_iff r headers _).mpr ⟨rfl, hvalid⟩)⟩

theorem prepared_eq {kid : String} {p : Signer.Prepared}
    (hp : (r.signer kid headers).prepare = .ok p) :
    p = ⟨(Claims.ofSigner kid (headers.map (·.1)) none).encode,
      signingInput (Claims.ofSigner kid (headers.map (·.1)) none).encode
        (Payload.build r.method.name r.target.path headers r.body)⟩ := by
  obtain ⟨path, hready, rfl⟩ := Signer.ready_of_prepare (signer_eq r kid headers ▸ hp)
  obtain ⟨rfl, -⟩ := (ready_signerCalls_iff r headers path).mp hready
  rw [claimsOf_signerCalls h, payloadOf_signerCalls h]

end

/-! ## what becomes of the request -/

/-- a request with a token in place of those that were there -/
structure CarriesToken (signed r : Request) (token : String) : Prop where
  method : signed.method = r.method
  target : signed.target = r.target
  body : signed.body = r.body
  others : ∀ f, f ≠ signatureField → signed.values f = r.values f
  token : ∃ value, signed.values signatureField = [value] ∧ value.octets = Bytes.ofText token

theorem isValueOctet_of_isVisibleOctet (x : UInt8) (h : isVisibleOctet x = true) :
    isValueOctet x = true := by
  have hall : ∀ x, isVisibleOctet x = true → isValueOctet x = true :=
    forall_octet (by decide +kernel)
  exact hall x h

theorem withToken_eq_ok_iff (r : Request) (token : String) (signed : Request) :
    r.withToken token = .ok signed ↔
      ∃ value, value.octets = Bytes.ofText token ∧ signed = r.set signatureField value := by
  unfold withToken FieldValue.ofOctets?
  by_cases h : (Bytes.ofText token).all isValueOctet = true
  · rw [dif_pos h]
    constructor
    · intro hsigned
      exact ⟨_, rfl, (Except.ok.inj hsigned).symm⟩
    · rintro ⟨value, hvalue, rfl⟩
      obtain rfl : value = ⟨Bytes.ofText token, h⟩ := FieldValue.ext_octets hvalue
      rfl
  · rw [dif_neg h]
    constructor
    · intro hsigned
      cases hsigned
    · rintro ⟨value, hvalue, -⟩
      exact absurd (hvalue ▸ value.valid) h

theorem exists_withToken_of_valid (r : Request) {token : String}
    (h : ∀ x ∈ Bytes.ofText token, isValueOctet x = true) :
    ∃ signed, r.withToken token = .ok signed := by
  have hvalid : (Bytes.ofText token).all isValueOctet = true := List.all_eq_true.mpr h
  exact ⟨_, (withToken_eq_ok_iff r token _).mpr ⟨⟨Bytes.ofText token, hvalid⟩, rfl, rfl⟩⟩

/-- a token with a signature in base64url can be put into a request -/
theorem exists_withToken (r : Request) (claims : Claims) {text : String} {signature : Bytes}
    (htext : Base64.decode? (Bytes.ofText text) = some signature) :
    ∃ signed, r.withToken (Token.compact claims.encode text) = .ok signed :=
  r.exists_withToken_of_valid fun x hx => isValueOctet_of_isVisibleOctet x
    (isVisibleOctet_of_mem_compact (Bytes.ofText claims.toValue.render) text signature htext x hx)

section
variable {r signed : Request} {token : String} (h : r.withToken token = .ok signed)
include h

theorem carriesToken_of_eq_ok : signed.CarriesToken r token := by
  obtain ⟨value, hvalue, rfl⟩ := (withToken_eq_ok_iff r token signed).mp h
  exact
    { method := rfl
      target := rfl
      body := rfl
      others := fun f hf => values_set_of_ne r signatureField f value hf
      token := ⟨value, values_set_self r signatureField value, hvalue⟩ }

/-- a second token takes the place of the first -/
theorem withToken_of_withToken (other : String) : signed.withToken other = r.withToken other := by
  obtain ⟨value, -, rfl⟩ := (withToken_eq_ok_iff r token signed).mp h
  unfold withToken
  cases FieldValue.ofOctets? (Bytes.ofText other) with
  | none => rfl
  | some second => exact congrArg Except.ok (r.set_set signatureField value second)

theorem signedHeader_of_withToken {name : String} (hname : Text.fold name ≠ signatureField.text) :
    signed.signedHeader name = r.signedHeader name := by
  have hlookup : signed.lookup? name = r.lookup? name := by
    rw [lookup?_eq, lookup?_eq]
    cases hf : FieldName.ofText? name with
    | none => rfl
    | some f =>
      have hne : f ≠ signatureField := by
        rintro rfl
        exact hname (FieldName.ofText?_eq_some name signatureField hf)
      exact congrArg List.head? ((carriesToken_of_eq_ok h).others f hne)
  unfold signedHeader
  rw [hlookup]

/-- **A request is signed again as if it had not been signed.** -/
theorem sign_of_withToken {m : Type → Type} [Monad m] (kid : String)
    (strategy : String → m (Except String String)) {names : List String}
    (hnames : ∀ name ∈ names, Text.fold name ≠ signatureField.text) :
    signed.sign kid strategy names = r.sign kid strategy names := by
  have hcarries := carriesToken_of_eq_ok h
  have hheaders : names.mapM signed.signedHeader = names.mapM r.signedHeader :=
    mapM_congr _ _ names fun name hm => signedHeader_of_withToken h (hnames name hm)
  have hsigner : ∀ headers, signed.signer kid headers = r.signer kid headers := by
    intro headers
    rw [signer_eq, signer_eq, signerCalls, hcarries.method, hcarries.target, hcarries.body]
    rfl
  have hwith : signed.withToken = r.withToken := funext fun other => withToken_of_withToken h other
  rw [sign, sign, hheaders]
  simp only [hsigner, hwith]

end

/-! ## signing -/

section
variable {m : Type → Type} [Monad m] [LawfulMonad m] {r : Request} {kid : String}
  {names : List String} {headers : List (String × Bytes)}

omit [LawfulMonad m] in
theorem sign_of_signedHeaders_error {e : Error} (h : names.mapM r.signedHeader = .error e)
    (strategy : String → m (Except String String)) :
    r.sign kid strategy names = pure (.error e) := by
  rw [sign, h]

theorem sign_of_prepare_error (h : names.mapM r.signedHeader = .ok headers) {e : Error}
    (hp : (r.signer kid headers).prepare = .error e)
    (strategy : String → m (Except String String)) :
    r.sign kid strategy names = pure (.error e) := by
  simp only [sign, h]
  rw [Signer.sign_of_error hp, pure_bind]
  rfl

theorem sign_of_prepare_ok (h : names.mapM r.signedHeader = .ok headers) {p : Signer.Prepared}
    (hp : (r.signer kid headers).prepare = .ok p) (strategy : String → m (Except String String)) :
    r.sign kid strategy names = (do
      let answer ← strategy p.signingInput
      pure (match answer with
        | .ok text => r.withToken (Token.compact p.encodedHeader text)
        | .error source => .error (.signing source))) := by
  simp only [sign, h]
  rw [Signer.sign_of_ok hp, bind_assoc]
  refine congrArg (strategy p.signingInput >>= ·) (funext fun answer => ?_)
  rw [pure_bind]
  cases answer <;> rfl

end

/-- **What signing asks for, and what it changes.**  The first listed name without a value is the
error, and the strategy is not asked.  Else a signer gets method, path and body of the request and
the first values under the listed names, in the order and spelling of the list.  What it refuses,
names listed twice and paths without a slash at the start, is the error, and the strategy is not
asked.  Else the strategy is asked once, for the signing input of that signer; its failure is
passed on, and its answer makes a token.  The token takes the place of all tokens of the request
and of nothing else, so that signing once more, with other names than that of the token, is the
same as signing the request that had not been signed. -/
theorem sign_request {m : Type → Type} [Monad m] [LawfulMonad m] (r : Request) (kid : String)
    (strategy : String → m (Except String String)) (names : List String) :
    (∀ before name after, names = before ++ name :: after →
      (∀ earlier ∈ before, ¬ r.Absent earlier) → r.Absent name →
      r.sign kid strategy names = pure (.error (.invalidArgument (.headerAbsent name)))) ∧
    ((∀ name ∈ names, ¬ r.Absent name) → ∃ headers : List (String × Bytes),
      headers.map (·.1) = names ∧ r.FirstValues headers ∧
      ((∃ p, (r.signer kid headers).prepare = .ok p) ↔
        (names.Pairwise fun a b => ¬ Text.EqIgnoringCase a b) ∧ ValidPath r.target.path) ∧
      (∀ e, (r.signer kid headers).prepare = .error e →
        (∃ fault, e = .invalidArgument fault) ∧ r.sign kid strategy names = pure (.error e)) ∧
      (∀ p, (r.signer kid headers).prepare = .ok p →
        p.signingInput = (Claims.ofSigner kid names none).encode ++ "." ++
          Base64.encode (Payload.build r.method.name r.target.path headers r.body) ∧
        r.sign kid strategy names = (do
          let answer ← strategy p.signingInput
          pure (match answer with
            | .ok text => r.withToken (Token.compact (Claims.ofSigner kid names none).encode text)
            | .error source => .error (.signing source))))) ∧
    (∀ text signature, Base64.decode? (Bytes.ofText text) = some signature →
      ∃ signed, r.withToken (Token.compact (Claims.ofSigner kid names none).encode text)
        = .ok signed) ∧
    (∀ token signed, r.withToken token = .ok signed →
      signed.CarriesToken r token ∧
      ∀ names', (∀ name ∈ names', Text.fold name ≠ signatureField.text) →
        ∀ kid' (strategy' : String → m (Except String String)),
          signed.sign kid' strategy' names' = r.sign kid' strategy' names') := by
  refine ⟨?_, ?_, ?_, ?_⟩
  · rintro before name after rfl hbefore hname
    exact sign_of_signedHeaders_error (signedHeaders_of_absent hbefore hname after) strategy
  · intro hthere
    obtain ⟨headers, hheaders, rfl, hfirst⟩ := exists_signedHeaders hthere
    refine ⟨headers, rfl, hfirst, exists_prepare_iff hfirst kid, ?_, ?_⟩
    · intro e he
      obtain ⟨fault, -, hfault⟩ := Signer.refused_of_prepare (signer_eq r kid headers ▸ he)
      exact ⟨⟨fault, hfault⟩, sign_of_prepare_error hheaders he strategy⟩
    · intro p hp
      have hsign := sign_of_prepare_ok hheaders hp strategy
      obtain rfl := prepared_eq hfirst hp
      exact ⟨rfl, hsign⟩
  · intro text signature htext
    exact exists_withToken r _ htext
  · intro token signed hsigned
    exact ⟨carriesToken_of_eq_ok hsigned, fun names' hnames kid' strategy' =>
      sign_of_withToken hsigned kid' strategy' hnames⟩

/-- a request with two tokens of earlier times and two values of one name -/
def staleRequest : Request where
  method := ⟨"PUT", by decide⟩
  target := .origin "/a" (some "q")
  fields :=
    [(signatureField, ⟨[byte 'x'], by decide⟩), (⟨"x-b", by decide⟩, ⟨[byte '3'], by decide⟩),
      (signatureField, ⟨[byte 'y'], by decide⟩), (⟨"x-b", by decide⟩, ⟨[byte '4'], by decide⟩)]
  body := [byte 'b']

theorem sign_staleRequest :
    let strategy := Signer.recording fun _ => .ok "AA"
    (∃ headers signed, headers.map (·.1) = ["X-b"] ∧ staleRequest.FirstValues headers ∧
      (staleRequest.sign "k" strategy ["X-b"]).run [] = (.ok signed,
        [(Claims.ofSigner "k" ["X-b"] none).encode ++ "." ++
          Base64.encode (Payload.build "PUT" "/a" headers [byte 'b'])]) ∧
      signed.CarriesToken staleRequest
        (Token.compact (Claims.ofSigner "k" ["X-b"] none).encode "AA") ∧
      signed.sign "k" strategy ["X-b"] = staleRequest.sign "k" strategy ["X-b"]) ∧
    (staleRequest.sign "k" strategy ["x-B", "X-b", "Via", "Date"]).run []
      = (.error (.invalidArgument (.headerAbsent "Via")), []) := by
  intro strategy
  constructor
  · obtain ⟨-, hsign, hvalid, hsigned⟩ := staleRequest.sign_request "k" strategy ["X-b"]
    obtain ⟨headers, hnames, hfirst, haccepts, -, hok⟩ := hsign (by decide)
    obtain ⟨p, hp⟩ := haccepts.mpr ⟨by decide, by decide⟩
    obtain ⟨hinput, hrun⟩ := hok p hp
    obtain ⟨signed, htoken⟩ := hvalid "AA" [0] (by decide)
    obtain ⟨hcarries, hagain⟩ := hsigned _ signed htoken
    refine ⟨headers, signed, hnames, hfirst, ?_, hcarries, hagain ["X-b"] (by decide) "k" strategy⟩
    rw [hrun, ← htoken]
    show (_, [p.signingInput]) = _
    rw [hinput]
    rfl
  · obtain ⟨habsent, -⟩ := staleRequest.sign_request "k" strategy ["x-B", "X-b", "Via", "Date"]
    rw [habsent ["x-B", "X-b"] "Via" ["Date"] rfl (by decide) (by decide)]
    rfl

end Request

end RequestSigning.Http
