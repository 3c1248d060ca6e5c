import RequestSigning.Proofs.Signer
import RequestSigning.Proofs.Verifier

/-!
# Signer and verifier

A signer and a verifier meet on the octets that are signed.

* `passed_of_claims`     with the claims of a signer, a verifier comes as far as the signature;
* `passed_of_prepare`    so it does with the token of a signer, and the path of its request;
* `accepted_of_prepare`  with the request of the signer, too, it builds the signing input again;
* `eq_of_passed`         a verifier that builds the signing input of a signer has its request, if
                         no path and no value holds a line feed.

`verify_of_sign` and `eq_of_verify` say the same of whole runs, from the calls on both sides to the
answer of the verifier.
-/

namespace RequestSigning

open HeaderTable (lastValue?)

theorem Signer.Collected.mem_trimmed {s : Signer} {signed : List (String × Bytes)}
    (_ : s.Collected signed) {h : String × Bytes} (hm : h ∈ signed) :
    (Text.trim h.1, h.2) ∈ Signer.trimmed signed := List.mem_map_of_mem hm

section
variable {κ : Type} {s : Signer} {signed : List (String × Bytes)} {v : Verifier κ}

/-! ## one way: the request of the signer is accepted -/

theorem signedNames_claims (hs : s.Collected signed) (v : Verifier κ) :
    v.signedNames s.claims = (Signer.trimmed signed).map (·.1) := hs.split_join

theorem select_trimmed (hvalues : ∀ h ∈ signed, v.headers.get? h.1 = some h.2) :
    v.headers.select ((Signer.trimmed signed).map (·.1)) = .ok (Signer.trimmed signed) := by
  apply (HeaderTable.select_eq_ok_iff _ _ _).mpr
  refine ⟨rfl, ?_⟩
  intro header hheader
  obtain ⟨h, hm, rfl⟩ := List.mem_map.mp hheader
  show v.headers.get? (Text.trim h.1) = some h.2
  rw [HeaderTable.get?_trim]
  exact hvalues h hm

variable [VerifyingKey κ] {p : Signer.Prepared}

/-- with the claims of a signer, a verifier comes as far as the signature, whatever its path -/
theorem passed_of_claims (hs : s.Collected signed) {text : String} {signature : Bytes}
    (htext : Base64.decode? (Bytes.ofText text) = some signature) {key : κ}
    (hresolved : v.resolveKey s.claims = .ok key) (hmethod : ValidMethod v.method) {path : String}
    (hpath : v.path = some path) (hvalid : ValidPath path)
    (hrequired : ∀ name ∈ v.required, ∃ h ∈ signed,
      Text.EqIgnoringCase (Text.trim h.1) (Text.trim name))
    {headers : List (String × Bytes)}
    (hselected : v.headers.select ((Signer.trimmed signed).map (·.1)) = .ok headers) :
    v.Passed (Token.compact s.claims.encode text) path ⟨s.claims.encode, s.claims, signature⟩ key
      headers where
  method := hmethod
  path_eq := hpath
  validPath := hvalid
  parsed := Token.parse_compact s.claims (Claims.decode_encode_ofSigner _ _ _) text signature htext
  resolved := hresolved
  algorithm := rfl
  version := rfl
  covered := by
    intro name hname
    obtain ⟨h, hm, he⟩ := hrequired name hname
    refine ⟨Text.trim h.1, ?_, he⟩
    rw [signedNames_claims hs]
    exact List.mem_map_of_mem (hs.mem_trimmed hm)
  selected := by rw [signedNames_claims hs, hselected]

/-- with the token of a signer, a verifier comes as far as the signature -/
theorem passed_of_prepare (hs : s.Collected signed) (hp : s.prepare = .ok p) {text : String}
    {signature : Bytes} (htext : Base64.decode? (Bytes.ofText text) = some signature) {key : κ}
    (hsource : v.source = .fixed key) (hmethod : Text.EqIgnoringCase v.method s.method)
    (hpath : v.path = s.path)
    (hrequired : ∀ name ∈ v.required, ∃ h ∈ signed,
      Text.EqIgnoringCase (Text.trim h.1) (Text.trim name))
    {headers : List (String × Bytes)}
    (hselected : v.headers.select ((Signer.trimmed signed).map (·.1)) = .ok headers) :
    ∃ path, s.path = some path ∧ v.Passed (Token.compact p.encodedHeader text) path
      ⟨p.encodedHeader, s.claims, signature⟩ key headers := by
  obtain ⟨-, hvalid, path, hsome, hvalidPath, rfl⟩ := (Signer.prepare_eq_ok_iff s p).mp hp
  have hresolved : v.resolveKey s.claims = .ok key := by rw [Verifier.resolveKey, hsource]
  exact ⟨path, hsome, passed_of_claims hs htext hresolved (hvalid.congr hmethod.symm)
    (hpath.trans hsome) hvalidPath hrequired hselected⟩

/-- **A verifier with the request of a signer accepts its token.** -/
theorem accepted_of_prepare (hs : s.Collected signed) (hp : s.prepare = .ok p) {text : String}
    {signature : Bytes} (htext : Base64.decode? (Bytes.ofText text) = some signature) {key : κ}
    (hkey : VerifyingKey.accepts key (Bytes.ofText p.signingInput) signature = true)
    (hsource : v.source = .fixed key) (hmethod : Text.EqIgnoringCase v.method s.method)
    (hpath : v.path = s.path) (hbody : v.body = s.body)
    (hvalues : ∀ h ∈ signed, v.headers.get? h.1 = some h.2)
    (hrequired : ∀ name ∈ v.required, ∃ h ∈ signed,
      Text.EqIgnoringCase (Text.trim h.1) (Text.trim name)) :
    ∃ path, v.Accepted (Token.compact p.encodedHeader text) path
        ⟨p.encodedHeader, s.claims, signature⟩ key (Signer.trimmed signed) ∧
      signingInput p.encodedHeader
        (Payload.build v.method path (Signer.trimmed signed) v.body) = p.signingInput := by
  obtain ⟨path, hsome, hpassed⟩ := passed_of_prepare hs hp htext hsource hmethod hpath hrequired
    (select_trimmed hvalues)
  obtain ⟨-, -, path', hsome', -, hprepared⟩ := (Signer.prepare_eq_ok_iff s p).mp hp
  obtain rfl := Option.some.inj (hsome.symm.trans hsome')
  have hinput : signingInput p.encodedHeader
      (Payload.build v.method path (Signer.trimmed signed) v.body) = p.signingInput := by
    rw [hprepared, Payload.build_congr hmethod, hbody, hs.toList_eq]
  refine ⟨path, ⟨hpassed, path, Spelling.refl path, ?_⟩, hinput⟩
  rw [← hinput] at hkey
  exact hkey

/-! ## the other way: what is accepted is the request of the signer -/

/-- **A verifier that builds the signing input of a signer has its request.** -/
theorem eq_of_passed (hs : s.Collected signed) (hp : s.prepare = .ok p)
    (hpath : ∀ path, s.path = some path → '\n' ∉ path.toList)
    (hvalues : ∀ h ∈ signed, Payload.newline ∉ h.2) {token path other : String} {t : Token}
    {key : κ} {headers : List (String × Bytes)} (h : v.Passed token path t key headers)
    (hother : '\n' ∉ other.toList) (hreceived : ∀ h ∈ headers, Payload.newline ∉ h.2)
    (hinput : t.signingInput (Payload.build v.method other headers v.body) = p.signingInput) :
    t.encodedHeader = p.encodedHeader ∧ Text.EqIgnoringCase v.method s.method ∧
      s.path = some other ∧ v.body = s.body ∧
      ∀ h ∈ signed, v.headers.get? h.1 = some h.2 := by
  obtain ⟨-, hvalid, signerPath, hsome, -, rfl⟩ := (Signer.prepare_eq_ok_iff s p).mp hp
  obtain ⟨hheader, hpayload⟩ := signingInput_inj (Token.head?_splitOn_of_parse h.parsed).2
    (Token.point_not_mem_encode s.claims) hinput
  -- the first segment decides which names are signed
  obtain ⟨-, -, hclaims, -⟩ := (Token.parse_eq_ok_iff token t).mp h.parsed
  have hwritten : Claims.decode s.claims.encode = .ok s.claims :=
    Claims.decode_encode_ofSigner s.kid s.headers.names s.jku
  rw [hheader, hwritten] at hclaims
  obtain ⟨hnames, hfound⟩ := (HeaderTable.select_eq_ok_iff _ _ _).mp h.selected
  rw [← Except.ok.inj hclaims, signedNames_claims hs] at hnames
  have htrimmed : ∀ header ∈ Signer.trimmed signed, Payload.newline ∉ header.2 := by
    intro header hm
    obtain ⟨original, horiginal, rfl⟩ := List.mem_map.mp hm
    exact hvalues original horiginal
  rw [hs.toList_eq] at hpayload
  obtain ⟨hmethod, rfl, hheaders, hbody⟩ := Payload.build_inj h.method hvalid hother
    (hpath signerPath hsome) hnames hreceived htrimmed hpayload
  refine ⟨hheader, hmethod, hsome, hbody, ?_⟩
  intro header hm
  rw [← HeaderTable.get?_trim v.headers header.1]
  exact hfound (Text.trim header.1, header.2) (hheaders ▸ hs.mem_trimmed hm)

/-! ## runs -/

theorem collected_of_prepare {kid : String} {calls : List Signer.Call}
    (hs : s = (Signer.new kid).applyAll calls) (hp : s.prepare = .ok p) :
    s.Collected (Signer.added calls) := by
  have hfault := ((Signer.prepare_eq_ok_iff s p).mp hp).1
  rw [hs] at hfault ⊢
  exact Signer.collected_applyAll_new kid calls hfault

omit [VerifyingKey κ] in
theorem source_eq_fixed {key : κ} {calls : List Verifier.Call}
    (hv : v = (Verifier.ofKey key).applyAll calls) : v.source = .fixed key := by
  rw [hv, Verifier.source_applyAll]
  rfl

/-- what a run that gave a token has prepared, and what it has asked for -/
theorem exists_prepared {answer : String → Except String String} {token input : String}
    (h : (s.sign (Signer.recording answer)).run [] = (.ok token, [input])) :
    ∃ p text, s.prepare = .ok p ∧ p.signingInput = input ∧ answer input = .ok text ∧
      token = Token.compact p.encodedHeader text := by
  rw [Signer.run_sign_recording] at h
  obtain ⟨htoken, hasked⟩ := Prod.mk.inj h
  obtain ⟨p, text, hp, hanswer, htext⟩ := (Signer.run_sign_eq_ok_iff s answer token).mp htoken
  rw [hp] at hasked
  obtain rfl : p.signingInput = input := (List.cons.inj hasked).1
  exact ⟨p, text, hp, rfl, hanswer, htext⟩

end

section
variable {κ : Type} [VerifyingKey κ] {s : Signer} {v : Verifier κ} {kid : String}
  {signerCalls : List Signer.Call} {answer : String → Except String String}
  {token input : String} {key : κ} {calls : List Verifier.Call}

/-- **Sign, then verify.**  Take any run of a signer that gives a token, any key that accepts the
signature on the signing input of that run, and any verifier with this key, with the method of the
signer up to case, its path and body, with headers of which the last value of each signed name is
the signed one, and asking for signed names only.  It accepts the token, because what it hands to
its key for the path as it was received is the signing input again. -/
theorem verify_of_sign (hs : s = (Signer.new kid).applyAll signerCalls)
    (hv : v = (Verifier.ofKey key).applyAll calls)
    (hrun : (s.sign (Signer.recording answer)).run [] = (.ok token, [input])) {text : String}
    {signature : Bytes} (hanswer : answer input = .ok text)
    (htext : Base64.decode? (Bytes.ofText text) = some signature)
    (hkey : VerifyingKey.accepts key (Bytes.ofText input) signature = true)
    (hmethod : Text.EqIgnoringCase v.method s.method) (hpath : v.path = s.path)
    (hbody : v.body = s.body)
    (hvalues : ∀ h ∈ Signer.added signerCalls, lastValue? (Verifier.added calls) h.1 = some h.2)
    (hrequired : ∀ name ∈ v.required, ∃ h ∈ Signer.added signerCalls,
      Text.EqIgnoringCase (Text.trim h.1) (Text.trim name)) :
    v.verify token = .ok () ∧
      ∃ t path headers, v.Accepted token path t key headers ∧
        Verifier.acceptsPayload key t (Payload.build v.method path headers v.body) = true ∧
        t.signingInput (Payload.build v.method path headers v.body) = input := by
  obtain ⟨p, text', hp, rfl, hanswer', rfl⟩ := exists_prepared hrun
  obtain rfl := Except.ok.inj (hanswer'.symm.trans hanswer)
  have hcollected := collected_of_prepare hs hp
  have hsource := source_eq_fixed hv
  have hfound : ∀ h ∈ Signer.added signerCalls, v.headers.get? h.1 = some h.2 := by
    intro h hm
    rw [hv, Verifier.get?_applyAll_ofKey]
    exact hvalues h hm
  obtain ⟨path, hacc, hinput⟩ := accepted_of_prepare hcollected hp htext hkey hsource hmethod hpath
    hbody hfound hrequired
  refine ⟨(Verifier.verify_eq_ok_iff v _).mpr ⟨path, _, key, _, hacc⟩, _, path, _, hacc, ?_, hinput⟩
  rw [← hinput] at hkey
  exact hkey

/-! A small request, and one that a proxy has passed on: the method in capitals, the header renamed
up to case and padded, an older value of it overwritten, a header added. -/

/-- a request with one header -/
def sentCalls : List Signer.Call :=
  [.method "post", .path "/a", .header " X-a" [byte '1'], .body [byte '\n'], .jku "u"]

/-- the signer of that request -/
def sender : Signer := (Signer.new "k").applyAll sentCalls

/-- what it asks a strategy to sign -/
def sentInput : String :=
  signingInput sender.claims.encode
    (Payload.build "post" "/a" [("X-a", [byte '1'])] [byte '\n'])

/-- the request as it is received -/
def receivedCalls : List Verifier.Call :=
  [.headers [("x-A ", [byte '2']), ("Via", [byte 'p'])], .body [byte '\n'], .path "/a",
    .header "x-a" [byte '1'], .method "POST", .require ["X-A ", "x-a"]]

/-- a key for what is signed of the request, and for nothing else -/
def sentKey : Verifier.OneMessage := ⟨Bytes.ofText sentInput⟩

theorem accepts_sentKey_iff (message signature : Bytes) :
    VerifyingKey.accepts sentKey message signature = true ↔ message = Bytes.ofText sentInput := by
  rw [Verifier.OneMessage.accepts_iff, sentKey]

/-- the verifier of that request -/
def receiver : Verifier Verifier.OneMessage := (Verifier.ofKey sentKey).applyAll receivedCalls

/-- the run of the signer, with a strategy that always gives the same answer -/
theorem run_sender : (sender.sign (Signer.recording fun _ => .ok "AA")).run []
    = (.ok (Token.compact sender.claims.encode "AA"), [sentInput]) := rfl

theorem verify_receiver :
    receiver.verify (Token.compact sender.claims.encode "AA") = .ok () ∧
      ∃ t headers,
        receiver.Accepted (Token.compact sender.claims.encode "AA") "/a" t sentKey headers ∧
        t.signingInput (Payload.build "POST" "/a" headers [byte '\n']) = sentInput := by
  have hs : sender = (Signer.new "k").applyAll sentCalls := rfl
  have hv : receiver = (Verifier.ofKey sentKey).applyAll receivedCalls := rfl
  have htext : Base64.decode? (Bytes.ofText "AA") = some [0] := by decide
  have hkey : VerifyingKey.accepts sentKey (Bytes.ofText sentInput) [0] = true :=
    (accepts_sentKey_iff _ _).mpr rfl
  have hmethod : Text.EqIgnoringCase "POST" "post" := by decide
  have hvalues : ∀ h ∈ Signer.added sentCalls,
      lastValue? (Verifier.added receivedCalls) h.1 = some h.2 := by decide
  have hrequired : ∀ name ∈ receiver.required, ∃ h ∈ Signer.added sentCalls,
      Text.EqIgnoringCase (Text.trim h.1) (Text.trim name) := by decide
  obtain ⟨hok, t, path, headers, hacc, -, hinput⟩ :=
    verify_of_sign hs hv run_sender rfl htext hkey hmethod rfl rfl hvalues hrequired
  have hpath : receiver.path = some "/a" := rfl
  obtain rfl := Option.some.inj (hacc.path_eq.symm.trans hpath)
  exact ⟨hok, t, headers, hacc, hinput⟩

/-- **Nothing but the signed request is accepted.**  Take a run of a signer and a key that accepts
signatures on the signing input of that run only.  Whatever token and whatever request a verifier
with this key accepts, the first segment of the token is that of the signer and the request is the
signed one: method up to case, path up to its other spelling, body, and the value of each signed
name.  No path and no value may hold a line feed, which would make payloads ambiguous. -/
theorem eq_of_verify (hs : s = (Signer.new kid).applyAll signerCalls)
    (hv : v = (Verifier.ofKey key).applyAll calls)
    (hrun : (s.sign (Signer.recording answer)).run [] = (.ok token, [input]))
    (hkey : ∀ message signature, VerifyingKey.accepts key message signature = true →
      message = Bytes.ofText input)
    (hpath : ∀ path, s.path = some path → '\n' ∉ path.toList)
    (hvalues : ∀ h ∈ Signer.added signerCalls, Payload.newline ∉ h.2)
    (hreceivedPath : ∀ path, v.path = some path → '\n' ∉ path.toList)
    (hreceived : ∀ name value, lastValue? (Verifier.added calls) name = some value →
      Payload.newline ∉ value)
    {other : String} (hok : v.verify other = .ok ()) :
    (Text.splitOn '.' other.toList).head? = (Text.splitOn '.' token.toList).head? ∧
      Text.EqIgnoringCase v.method s.method ∧
      (∃ path spelling, v.path = some path ∧ s.path = some spelling ∧
        (spelling = path ∨ toggleSlash? path = some spelling)) ∧
      v.body = s.body ∧
      ∀ h ∈ Signer.added signerCalls, lastValue? (Verifier.added calls) h.1 = some h.2 := by
  obtain ⟨p, text, hp, rfl, -, rfl⟩ := exists_prepared hrun
  have hcollected := collected_of_prepare hs hp
  have hget : ∀ name, v.headers.get? name = lastValue? (Verifier.added calls) name := by
    intro name
    rw [hv, Verifier.get?_applyAll_ofKey]
  obtain ⟨path, t, key', headers, hacc⟩ := (Verifier.verify_eq_ok_iff v other).mp hok
  have hsource := source_eq_fixed hv
  have hresolved := hacc.resolved
  rw [Verifier.resolveKey, hsource] at hresolved
  obtain rfl := Except.ok.inj hresolved
  obtain ⟨spelling, hspelling, hsignature⟩ := hacc.signature
  -- the one message of the key is what the signer has asked for
  have hinput := Bytes.ofText_inj (hkey _ _ hsignature)
  have hplain : ∀ h ∈ headers, Payload.newline ∉ h.2 := by
    intro h hm
    have hfound := ((HeaderTable.select_eq_ok_iff _ _ _).mp hacc.selected).2 h hm
    rw [hget] at hfound
    exact hreceived h.1 h.2 hfound
  obtain ⟨hheader, hmethod, hsome, hbody, hfound⟩ :=
    eq_of_passed hcollected hp hpath hvalues hacc.toPassed
      (hspelling.newline_not_mem (hreceivedPath path hacc.path_eq)) hplain hinput
  refine ⟨?_, hmethod, ⟨path, spelling, hacc.path_eq, hsome, hspelling⟩, hbody, ?_⟩
  · have hpoint := (Token.head?_splitOn_of_parse hacc.parsed).2
    rw [(Token.head?_splitOn_of_parse hacc.parsed).1, hheader, Token.head?_splitOn_compact]
    rw [← hheader]
    exact hpoint
  · intro h hm
    rw [← hget]
    exact hfound h hm

end

theorem eq_of_verify_receiver :
    receiver.body = sender.body ∧
      ∀ h ∈ Signer.added sentCalls, lastValue? (Verifier.added receivedCalls) h.1 = some h.2 := by
  have hs : sender = (Signer.new "k").applyAll sentCalls := rfl
  have hv : receiver = (Verifier.ofKey sentKey).applyAll receivedCalls := rfl
  have hkey : ∀ message signature, VerifyingKey.accepts sentKey message signature = true →
      message = Bytes.ofText sentInput := fun message signature =>
    (accepts_sentKey_iff message signature).mp
  have hpath : ∀ path, sender.path = some path → '\n' ∉ path.toList := by
    rintro path ⟨⟩
    decide
  have hreceivedPath : ∀ path, receiver.path = some path → '\n' ∉ path.toList := hpath
  have hvalues : ∀ h ∈ Signer.added sentCalls, Payload.newline ∉ h.2 := by decide
  have hplain : ∀ value ∈ (Verifier.added receivedCalls).map (·.2), Payload.newline ∉ value := by
    decide
  have hok : receiver.verify (Token.compact sender.claims.encode "AA") = .ok () :=
    eq_ok_of_toBool (by decide +kernel)
  obtain ⟨-, -, -, hbody, hall⟩ := eq_of_verify hs hv run_sender hkey hpath hvalues hreceivedPath
    (fun _ _ h => hplain _ (HeaderTable.mem_of_lastValue? h)) hok
  exact ⟨hbody, hall⟩

end RequestSigning
