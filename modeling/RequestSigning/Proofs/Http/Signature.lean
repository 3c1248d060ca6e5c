import RequestSigning.Http.Signature
import RequestSigning.Proofs.Http.Request
import RequestSigning.Proofs.SignVerify

/-!
# Signed HTTP requests

Signing a request takes the first value of each named field, verifying it the last: all fields go
into a table, where the last value of a name counts.  `verify_signed` says what comes of it.  A
request that has been signed is accepted if the two views agree on each signed name
(`ViewsAgree`), and it is refused, with an invalid signature, if they do not.
-/

namespace RequestSigning.Http

/-! ## the field with the token -/

theorem isVisibleOctet_of_readable (x : UInt8) (h : Base64.Readable x) :
    isVisibleOctet x = true := by
  have hall : ∀ x, Base64.Readable x → isVisibleOctet x = true := forall_octet (by decide +kernel)
  exact hall x h

theorem toNat_lt_of_isVisibleOctet (x : UInt8) (h : isVisibleOctet x = true) : x.toNat < 128 := by
  rw [isVisibleOctet, Bool.or_eq_true, Bool.and_eq_true, decide_eq_true_eq, decide_eq_true_eq,
    decide_eq_true_eq] at h
  rcases h with ⟨-, h⟩ | rfl
  · exact Nat.lt_trans (UInt8.lt_iff_toNat_lt.mp h) (by decide)
  · decide

/-- a text of visible octets is read from the value that holds it -/
theorem FieldValue.text?_of_visible (value : FieldValue) (s : String)
    (hoctets : value.octets = Bytes.ofText s)
    (hvisible : ∀ x ∈ Bytes.ofText s, isVisibleOctet x = true) : value.text? = some s := by
  have hall : value.octets.all isVisibleOctet = true := by
    rw [hoctets]
    exact List.all_eq_true.mpr hvisible
  rw [FieldValue.text?, if_pos hall]
  refine congrArg some (Bytes.ofText_inj ?_)
  rw [Bytes.ofText_ofList, Bytes.ofChars_map_ofNat, hoctets]
  intro x hx
  exact toNat_lt_of_isVisibleOctet x (List.all_eq_true.mp hall x hx)

/-- a token consists of visible octets -/
theorem isVisibleOctet_of_mem_compact (claims : Bytes) (text : String) (signature : Bytes)
    (htext : Base64.decode? (Bytes.ofText text) = some signature) (x : UInt8)
    (hx : x ∈ Bytes.ofText (Token.compact (Base64.encode claims) text)) :
    isVisibleOctet x = true := by
  rw [Token.compact, Bytes.ofText_append, Bytes.ofText_append, List.append_assoc,
    List.mem_append, List.mem_append] at hx
  rcases hx with hx | hx | hx
  · exact isVisibleOctet_of_readable x
      (Base64.readable_of_decode? _ _ (Base64.decode?_encode claims) x hx)
  · rw [show Bytes.ofText ".." = [byte '.', byte '.'] by decide, List.mem_cons,
      List.mem_singleton, or_self] at hx
    rw [hx]
    decide
  · exact isVisibleOctet_of_readable x (Base64.readable_of_decode? _ _ htext x hx)

namespace Request

theorem token_set (r : Request) (value : FieldValue) (token : String)
    (h : value.text? = some token) : (r.set signatureField value).token = .ok token := by
  have hget : (r.set signatureField value).get? signatureField = some value := by
    rw [get?_eq_head?, values_set_self]
    rfl
  simp only [Request.token, hget, h]

/-! ## signing -/

theorem signedHeader_eq_ok {r : Request} {name : String} {header : String × Bytes}
    (h : r.signedHeader name = .ok header) :
    ∃ f value, FieldName.ofText? name = some f ∧ (r.values f).head? = some value ∧
      header = (name, value.octets) := by
  unfold signedHeader at h
  cases hlookup : r.lookup? name with
  | none =>
    rw [hlookup] at h
    cases h
  | some value =>
    rw [hlookup] at h
    obtain ⟨f, hf, hvalue⟩ := Option.bind_eq_some_iff.mp hlookup
    rw [get?_eq_head?] at hvalue
    exact ⟨f, value, hf, hvalue, (Except.ok.inj h).symm⟩

theorem signedHeaders_eq_ok {r : Request} {names : List String} {headers : List (String × Bytes)}
    (h : names.mapM r.signedHeader = .ok headers) :
    headers.map (·.1) = names ∧ ∀ header ∈ headers, ∃ f value,
      FieldName.ofText? header.1 = some f ∧ (r.values f).head? = some value ∧
        header.2 = value.octets := by
  rw [mapM_eq_ok_iff] at h
  induction headers generalizing names with
  | nil =>
    rw [List.map_nil, List.map_eq_nil_iff] at h
    exact ⟨h.symm, fun header hm => absurd hm List.not_mem_nil⟩
  | cons header headers ih =>
    cases names with
    | nil => exact absurd h.symm (List.cons_ne_nil _ _)
    | cons name names =>
      obtain ⟨hfirst, hrest⟩ := List.cons.inj h
      obtain ⟨hnames, hall⟩ := ih hrest
      obtain ⟨f, value, hf, hvalue, rfl⟩ := signedHeader_eq_ok hfirst
      refine ⟨congrArg (name :: ·) hnames, List.forall_mem_cons.mpr ⟨?_, hall⟩⟩
      exact ⟨f, value, hf, hvalue, rfl⟩

/-- what came of a request that has been signed -/
theorem exists_of_sign {r signed : Request} {kid : String}
    {answer : String → Except String String} {names : List String}
    (h : Id.run (r.sign (m := Id) kid answer names) = .ok signed) :
    ∃ headers p text value, names.mapM r.signedHeader = .ok headers ∧
      (r.signer kid headers).prepare = .ok p ∧ answer p.signingInput = .ok text ∧
      value.octets = Bytes.ofText (Token.compact p.encodedHeader text) ∧
      signed = r.set signatureField value := by
  unfold sign at h
  cases hheaders : names.mapM r.signedHeader with
  | error e =>
    rw [hheaders] at h
    cases h
  | ok headers =>
    rw [hheaders] at h
    have hbind : Id.run ((r.signer kid headers).sign (m := Id) answer) >>= r.withToken
        = .ok signed := h
    obtain ⟨token, htoken, hwith⟩ := (bind_eq_ok_iff _ _ _).mp hbind
    obtain ⟨p, text, hp, hanswer, rfl⟩ := (Signer.run_sign_eq_ok_iff _ answer token).mp htoken
    unfold withToken FieldValue.ofOctets? at hwith
    split at hwith
    · rename_i value hvalue
      split at hvalue
      · obtain rfl := Option.some.inj hvalue
        exact ⟨headers, p, text, _, rfl, hp, hanswer, rfl, (Except.ok.inj hwith).symm⟩
      · cases hvalue
    · cases hwith

theorem added_signer (r : Request) (headers : List (String × Bytes)) :
    Signer.added [.method r.method.name, .path r.target.path, .body r.body, .headers headers]
      = headers := by
  show headers ++ [] = headers
  rw [List.append_nil]

/-- the other values of the signer are those of the request -/
theorem signer_values (r : Request) (kid : String) (headers : List (String × Bytes)) :
    (r.signer kid headers).method = r.method.name ∧
      (r.signer kid headers).path = some r.target.path ∧ (r.signer kid headers).body = r.body := by
  obtain ⟨table, fault?, h⟩ := Signer.exists_addHeaders_eq
    ((Signer.new kid).applyAll [.method r.method.name, .path r.target.path, .body r.body]) headers
  exact ⟨congrArg Signer.method h, congrArg Signer.path h, congrArg Signer.body h⟩

/-! ## the two views of a name -/

/-- the first value of a name is its last one -/
def ViewsAgree (r : Request) (name : String) : Prop :=
  ∀ f, FieldName.ofText? name = some f → (r.values f).head? = (r.values f).getLast?

section
variable {κ : Type}

/-- the verifier that a signed request is put into -/
def receiving (r : Request) (value : FieldValue) (key : κ) (required : List String) :
    Verifier κ :=
  (r.set signatureField value).received ((Verifier.ofKey key).apply (.require required))

variable {r : Request} {value : FieldValue} {key : κ} {required : List String}

theorem source_receiving : (r.receiving value key required).source = .fixed key := rfl

theorem method_receiving (kid : String) (headers : List (String × Bytes)) :
    Text.EqIgnoringCase (r.receiving value key required).method
      (r.signer kid headers).method := by
  rw [(signer_values r kid headers).1]
  exact Text.EqIgnoringCase.refl r.method.name

theorem path_receiving (kid : String) (headers : List (String × Bytes)) :
    (r.receiving value key required).path = (r.signer kid headers).path :=
  (signer_values r kid headers).2.1.symm

theorem body_receiving (kid : String) (headers : List (String × Bytes)) :
    (r.receiving value key required).body = (r.signer kid headers).body :=
  (signer_values r kid headers).2.2.symm

theorem get?_receiving (name : String) (f : FieldName) (hf : FieldName.ofText? name = some f)
    (hname : Text.fold name ≠ signatureField.text) :
    (r.receiving value key required).headers.get? name
      = (r.values f).getLast?.map FieldValue.octets := by
  have hne : f ≠ signatureField := by
    rintro rfl
    exact hname (FieldName.ofText?_eq_some name signatureField hf)
  show (HeaderTable.ofList (r.set signatureField value).headers).get? name = _
  rw [HeaderTable.get?_ofList, lastValue?_headers _ name f (FieldName.key_of_ofText? name f hf),
    values_set_of_ne r signatureField f value hne]

/-- the table has the signed value of a header exactly if the two views of its name agree -/
theorem get?_receiving_eq_iff {headers : List (String × Bytes)}
    (hfirst : ∀ header ∈ headers, ∃ f value, FieldName.ofText? header.1 = some f ∧
      (r.values f).head? = some value ∧ header.2 = value.octets)
    (header : String × Bytes) (hm : header ∈ headers)
    (hname : Text.fold header.1 ≠ signatureField.text) :
    (r.receiving value key required).headers.get? header.1 = some header.2 ↔
      r.ViewsAgree header.1 := by
  obtain ⟨f, first, hf, hhead, hvalue⟩ := hfirst header hm
  rw [get?_receiving header.1 f hf hname, hvalue]
  constructor
  · intro h f' hf'
    obtain rfl := Option.some.inj (hf.symm.trans hf')
    obtain ⟨last, hlast, hoctets⟩ := Option.map_eq_some_iff.mp h
    rw [hhead, hlast, FieldValue.ext_octets hoctets]
  · intro h
    rw [← h f hf, hhead]
    rfl

theorem exists_get?_receiving {headers : List (String × Bytes)}
    (hfirst : ∀ header ∈ headers, ∃ f value, FieldName.ofText? header.1 = some f ∧
      (r.values f).head? = some value ∧ header.2 = value.octets)
    (hnames : ∀ header ∈ headers, Text.fold header.1 ≠ signatureField.text)
    (header : String × Bytes) (hm : header ∈ headers) :
    ∃ octets, (r.receiving value key required).headers.get? header.1 = some octets := by
  obtain ⟨f, first, hf, hhead, -⟩ := hfirst header hm
  rw [get?_receiving header.1 f hf (hnames header hm)]
  cases hlast : (r.values f).getLast? with
  | none =>
    rw [List.getLast?_eq_none_iff] at hlast
    rw [hlast] at hhead
    cases hhead
  | some last => exact ⟨last.octets, rfl⟩

theorem newline_not_mem_receiving (name : String) (octets : Bytes)
    (h : (r.receiving value key required).headers.get? name = some octets) :
    Payload.newline ∉ octets := by
  have hget : (HeaderTable.ofList (r.set signatureField value).headers).get? name = some octets := h
  rw [HeaderTable.get?_ofList] at hget
  obtain ⟨header, hm, rfl⟩ := List.mem_map.mp (HeaderTable.mem_of_lastValue? hget)
  obtain ⟨field, -, rfl⟩ := List.mem_map.mp hm
  exact field.2.newline_not_mem

end

/-! ## signing, then verifying -/

section
variable {κ : Type} [VerifyingKey κ] {r : Request} {kid : String}
  {headers : List (String × Bytes)} {p : Signer.Prepared} {value : FieldValue} {key : κ}
  {required : List String} {text : String} {signature : Bytes}

theorem collected_signer (hp : (r.signer kid headers).prepare = .ok p) :
    (r.signer kid headers).Collected headers := by
  have hcollected := collected_of_prepare rfl hp
  rwa [added_signer] at hcollected

/-- the token of a signer can be read from the field that holds it -/
theorem text?_of_prepare {s : Signer} (hp : s.prepare = .ok p)
    (hoctets : value.octets = Bytes.ofText (Token.compact p.encodedHeader text))
    (htext : Base64.decode? (Bytes.ofText text) = some signature) :
    value.text? = some (Token.compact p.encodedHeader text) := by
  obtain ⟨-, -, path, -, -, rfl⟩ := (Signer.prepare_eq_ok_iff s p).mp hp
  exact value.text?_of_visible _ hoctets (isVisibleOctet_of_mem_compact _ text signature htext)

theorem verify_set {token : String} (h : value.text? = some token) :
    (r.set signatureField value).verify ((Verifier.ofKey key).apply (.require required))
      = (r.receiving value key required).verify token := by
  rw [Request.verify, token_set r value token h, ok_bind]
  rfl

section
variable (hp : (r.signer kid headers).prepare = .ok p)
  (hfirst : ∀ header ∈ headers, ∃ f value, FieldName.ofText? header.1 = some f ∧
    (r.values f).head? = some value ∧ header.2 = value.octets)
  (hnames : ∀ header ∈ headers, Text.fold header.1 ≠ signatureField.text)
  (htext : Base64.decode? (Bytes.ofText text) = some signature)
  (hrequired : ∀ name ∈ required, ∃ header ∈ headers,
    Text.EqIgnoringCase (Text.trim header.1) (Text.trim name))
include hp hfirst hnames htext hrequired

theorem verify_receiving_of_agree
    (hkey : VerifyingKey.accepts key (Bytes.ofText p.signingInput) signature = true)
    (hagree : ∀ header ∈ headers, r.ViewsAgree header.1) :
    (r.receiving value key required).verify (Token.compact p.encodedHeader text) = .ok () := by
  have hvalues : ∀ header ∈ headers,
      (r.receiving value key required).headers.get? header.1 = some header.2 := by
    intro header hm
    exact (get?_receiving_eq_iff hfirst header hm (hnames header hm)).mpr
      (hagree header hm)
  obtain ⟨path, hacc, -⟩ := accepted_of_prepare (collected_signer hp) hp htext hkey
    source_receiving (method_receiving kid headers) (path_receiving kid headers)
    (body_receiving kid headers) hvalues hrequired
  exact (Verifier.verify_eq_ok_iff _ _).mpr ⟨path, _, key, _, hacc⟩

theorem verify_receiving_of_not_agree (hpath : '\n' ∉ r.target.path.toList)
    (hkey : ∀ message, VerifyingKey.accepts key message signature = true →
      message = Bytes.ofText p.signingInput)
    (hviews : ∃ header ∈ headers, ¬ r.ViewsAgree header.1) :
    (r.receiving value key required).verify (Token.compact p.encodedHeader text)
      = .error .invalidSignature := by
  have hthere : ∀ name ∈ (Signer.trimmed headers).map (·.1),
      ∃ octets, (r.receiving value key required).headers.get? name = some octets := by
    intro name hm
    obtain ⟨_, htrimmed, rfl⟩ := List.mem_map.mp hm
    obtain ⟨header, hheader, rfl⟩ := List.mem_map.mp htrimmed
    obtain ⟨octets, hget⟩ :=
      exists_get?_receiving hfirst hnames header hheader
    exact ⟨octets, (HeaderTable.get?_trim _ header.1).trans hget⟩
  obtain ⟨selected, hselected⟩ := HeaderTable.exists_select _ _ hthere
  obtain ⟨path, hsome, hpassed⟩ := passed_of_prepare (collected_signer hp) hp htext
    source_receiving (method_receiving kid headers) (path_receiving kid headers) hrequired
    hselected
  rw [hpassed.verify_eq]
  -- an accepted signature would make the first and the last values equal
  apply if_neg
  intro haccepted
  obtain ⟨other, hother, hsignature⟩ := (Verifier.acceptsPath_eq_true_iff _ _).mp haccepted
  have hplain : ∀ path, (r.signer kid headers).path = some path → '\n' ∉ path.toList := by
    intro path h
    obtain rfl := Option.some.inj ((signer_values r kid headers).2.1.symm.trans h)
    exact hpath
  have hsigned : ∀ header ∈ headers, Payload.newline ∉ header.2 := by
    intro header hm
    obtain ⟨f, first, -, -, hvalue⟩ := hfirst header hm
    rw [hvalue]
    exact first.newline_not_mem
  have hreceived : ∀ header ∈ selected, Payload.newline ∉ header.2 := by
    intro header hm
    exact newline_not_mem_receiving header.1 header.2
      (((HeaderTable.select_eq_ok_iff _ _ _).mp hselected).2 header hm)
  obtain ⟨-, -, -, -, hsame⟩ := eq_of_passed (collected_signer hp) hp hplain hsigned hpassed
    (hother.newline_not_mem (hplain path hsome)) hreceived
    (Bytes.ofText_inj (hkey _ hsignature))
  obtain ⟨header, hm, hdisagree⟩ := hviews
  exact hdisagree ((get?_receiving_eq_iff hfirst header hm
    (hnames header hm)).mp (hsame header hm))

end

end

section
variable {κ : Type} [VerifyingKey κ] {method target : String} {fields : List (String × Bytes)}
  {body : Bytes} {r signed : Request} {kid : String} {answer : String → Except String String}
  {names required : List String} {key : κ}

/-- **A signed request is accepted exactly if the two views of each signed name agree.**  Take any
request that can be built, any signed names but that of the signature, any required ones among
them, and any key that accepts the signatures of the strategy.  If the first value of each signed
name is its last one, then what has been signed is accepted.  If it is not, for one name, then the
signature is invalid, provided that it belongs to nothing but what the strategy was asked for. -/
theorem verify_signed (hr : Request.build? method target fields body = some r)
    (hnames : ∀ name ∈ names, Text.fold name ≠ signatureField.text)
    (hsign : Id.run (r.sign (m := Id) kid answer names) = .ok signed)
    (hrequired : required ⊆ names)
    (haccepts : ∀ input text, answer input = .ok text → ∃ signature,
      Base64.decode? (Bytes.ofText text) = some signature ∧
        VerifyingKey.accepts key (Bytes.ofText input) signature = true) :
    ((∀ name ∈ names, r.ViewsAgree name) →
      signed.verify ((Verifier.ofKey key).apply (.require required)) = .ok ()) ∧
    ((∀ input text signature message, answer input = .ok text →
        Base64.decode? (Bytes.ofText text) = some signature →
        VerifyingKey.accepts key message signature = true → message = Bytes.ofText input) →
      (∃ name ∈ names, ¬ r.ViewsAgree name) →
      signed.verify ((Verifier.ofKey key).apply (.require required))
        = .error .invalidSignature) := by
  obtain ⟨headers, p, text, value, hheaders, hp, hanswer, hoctets, rfl⟩ := exists_of_sign hsign
  obtain ⟨rfl, hfirst⟩ := signedHeaders_eq_ok hheaders
  obtain ⟨signature, htext, hkey⟩ := haccepts p.signingInput text hanswer
  have hunnamed : ∀ header ∈ headers, Text.fold header.1 ≠ signatureField.text := fun header hm =>
    hnames header.1 (List.mem_map_of_mem hm)
  have hcovered : ∀ name ∈ required, ∃ header ∈ headers,
      Text.EqIgnoringCase (Text.trim header.1) (Text.trim name) := by
    intro name hname
    obtain ⟨header, hm, rfl⟩ := List.mem_map.mp (hrequired hname)
    exact ⟨header, hm, Text.EqIgnoringCase.refl _⟩
  rw [verify_set (text?_of_prepare hp hoctets htext)]
  constructor
  · intro hagree
    exact verify_receiving_of_agree hp hfirst hunnamed htext hcovered hkey fun header hm =>
      hagree header.1 (List.mem_map_of_mem hm)
  · intro hexact hdisagree
    obtain ⟨name, hname, hviews⟩ := hdisagree
    obtain ⟨header, hm, rfl⟩ := List.mem_map.mp hname
    exact verify_receiving_of_not_agree hp hfirst hunnamed htext hcovered (newline_not_mem_path hr)
      (fun message => hexact _ _ _ message hanswer htext) ⟨header, hm, hviews⟩

end

/-- a key whose signatures are the messages themselves -/
inductive EchoKey where
  | echo

instance : VerifyingKey EchoKey where
  ofWebKey := fun _ => .error (.invalidKey .invalidPoint)
  accepts := fun _ message signature => decide (signature = message)

/-- the strategy of that key -/
def echo (input : String) : Except String String := .ok (Base64.encode (Bytes.ofText input))

/-- a request with two values of one name -/
def twoValues : Request where
  method := ⟨"GET", by decide⟩
  target := .origin "/a" none
  fields :=
    [(⟨"x-a", by decide⟩, ⟨[byte '1'], by decide⟩), (⟨"x-a", by decide⟩, ⟨[byte '2'], by decide⟩)]
  body := []

/-- signed and verified, a request with two values of a name has an invalid signature -/
theorem verify_signed_twoValues :
    ∃ signed, Id.run (twoValues.sign (m := Id) "k" echo ["X-a"]) = .ok signed ∧
      signed.verify ((Verifier.ofKey EchoKey.echo).apply (.require ["X-a"]))
        = .error .invalidSignature := by
  have hr : Request.build? "GET" "/a" [("x-a", [byte '1']), ("X-A", [byte '2'])] []
      = some twoValues := rfl
  have hnames : ∀ name ∈ ["X-a"], Text.fold name ≠ signatureField.text := by decide
  obtain ⟨signed, hsign⟩ := exists_ok_of_toBool
    (show (Id.run (twoValues.sign (m := Id) "k" echo ["X-a"])).toBool = true by decide +kernel)
  have haccepts : ∀ input text, echo input = .ok text → ∃ signature,
      Base64.decode? (Bytes.ofText text) = some signature ∧
        VerifyingKey.accepts EchoKey.echo (Bytes.ofText input) signature = true := by
    intro input text h
    obtain rfl := Except.ok.inj h
    exact ⟨Bytes.ofText input, Base64.decode?_encode _, decide_eq_true rfl⟩
  have hexact : ∀ input text signature message, echo input = .ok text →
      Base64.decode? (Bytes.ofText text) = some signature →
      VerifyingKey.accepts EchoKey.echo message signature = true →
      message = Bytes.ofText input := by
    intro input text signature message h hdecode haccepted
    obtain rfl := Except.ok.inj h
    rw [Base64.decode?_encode] at hdecode
    rw [← of_decide_eq_true haccepted]
    exact (Option.some.inj hdecode).symm
  have hviews : ¬ twoValues.ViewsAgree "X-a" := by
    intro h
    have hoctets := congrArg (Option.map FieldValue.octets) (h ⟨"x-a", by decide⟩ rfl)
    exact absurd hoctets (by decide)
  refine ⟨signed, hsign, ?_⟩
  exact (verify_signed hr hnames hsign (List.Subset.refl _) haccepts).2 hexact
    ⟨"X-a", List.mem_singleton_self _, hviews⟩

end Request

end RequestSigning.Http
