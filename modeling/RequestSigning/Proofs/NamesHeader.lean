import RequestSigning.Proofs.Verifier

/-!
# Names of signed headers that are not signed themselves

The claims of older signers do not list the signed names.  These come from the header
`Tl-Signature-Headers` (`Verifier.listed`), which nobody has signed, and nothing in a payload is
escaped: whoever sends a request may cut its octets into header lines and body in another way.

There are not many ways, if no line feed is in a path or a value.  A header line ends at its first
line feed (`Payload.headerLine_eq`), so that two requests with the same payload have the same lines
as far as both have any, and what one of them lists in addition the other has in front of its body
(`Payload.body_eq_append`).  `bodies_of_unlisted` says this of two requests that are accepted with
one token: the bodies are the same exactly if equally many names are listed.
-/

namespace RequestSigning

/-! ## lines -/

namespace Payload

/-- a header without a line feed -/
structure OneLine (header : String × Bytes) : Prop where
  name : '\n' ∉ header.1.toList
  value : newline ∉ header.2

/-- a header line without its line feed -/
def headerText (header : String × Bytes) : Bytes :=
  Bytes.ofText header.1 ++ byte ':' :: byte ' ' :: header.2

theorem headerLine_eq (header : String × Bytes) :
    headerLine header = headerText header ++ [newline] := by
  rw [headerLine, headerText, List.append_assoc]
  rfl

theorem OneLine.newline_not_mem {header : String × Bytes} (h : OneLine header) :
    newline ∉ headerText header := by
  intro hm
  rcases List.mem_append.mp hm with hm | hm
  · exact newline_not_mem_ofText h.name hm
  · rcases List.mem_cons.mp hm with e | hm
    · exact absurd e (by decide)
    · rcases List.mem_cons.mp hm with e | hm
      · exact absurd e (by decide)
      · exact h.value hm

theorem flatMap_headerLine_cons (header : String × Bytes) (headers : List (String × Bytes))
    (body : Bytes) : (header :: headers).flatMap headerLine ++ body
      = headerText header ++ newline :: (headers.flatMap headerLine ++ body) := by
  rw [List.flatMap_cons, headerLine_eq, List.append_assoc, List.append_assoc]
  rfl

section
variable {headers headers' : List (String × Bytes)} {body body' : Bytes}

/-- **The request with fewer lines has the further lines of the other one in front of its body.** -/
theorem body_eq_append (hplain : ∀ header ∈ headers, OneLine header)
    (hplain' : ∀ header ∈ headers', OneLine header) (hle : headers.length ≤ headers'.length)
    (h : headers.flatMap headerLine ++ body = headers'.flatMap headerLine ++ body') :
    body = (headers'.drop headers.length).flatMap headerLine ++ body' := by
  induction headers generalizing headers' with
  | nil => exact h
  | cons header headers ih =>
    cases headers' with
    | nil => exact absurd hle (Nat.not_succ_le_zero _)
    | cons header' headers' =>
      -- both sides begin with a line, which ends at their first line feed
      rw [flatMap_headerLine_cons, flatMap_headerLine_cons] at h
      obtain ⟨-, hrest⟩ := eq_of_append_separator newline _ _ _ _
        (hplain header List.mem_cons_self).newline_not_mem
        (hplain' header' List.mem_cons_self).newline_not_mem h
      exact ih (fun h hm => hplain h (List.mem_cons_of_mem header hm))
        (fun h hm => hplain' h (List.mem_cons_of_mem header' hm)) (Nat.le_of_succ_le_succ hle) hrest

theorem length_le_flatMap_headerLine (headers : List (String × Bytes)) :
    headers.length ≤ (headers.flatMap headerLine).length := by
  induction headers with
  | nil => exact Nat.le_refl 0
  | cons header headers ih =>
    rw [List.flatMap_cons, headerLine_eq, List.length_append, List.length_append, List.length_cons,
      List.length_singleton]
    omega

theorem length_body_lt (hplain : ∀ header ∈ headers, OneLine header)
    (hplain' : ∀ header ∈ headers', OneLine header) (hlt : headers.length < headers'.length)
    (h : headers.flatMap headerLine ++ body = headers'.flatMap headerLine ++ body') :
    body'.length < body.length := by
  have hdrop := length_le_flatMap_headerLine (headers'.drop headers.length)
  rw [List.length_drop] at hdrop
  rw [body_eq_append hplain hplain' (Nat.le_of_lt hlt) h, List.length_append]
  omega

theorem body_eq_iff (hplain : ∀ header ∈ headers, OneLine header)
    (hplain' : ∀ header ∈ headers', OneLine header)
    (h : headers.flatMap headerLine ++ body = headers'.flatMap headerLine ++ body') :
    body = body' ↔ headers.length = headers'.length := by
  constructor
  · rintro rfl
    rcases Nat.lt_trichotomy headers.length headers'.length with hlt | heq | hlt
    · exact absurd (length_body_lt hplain hplain' hlt h) (Nat.lt_irrefl _)
    · exact heq
    · exact absurd (length_body_lt hplain' hplain hlt h.symm) (Nat.lt_irrefl _)
  · intro heq
    rw [body_eq_append hplain hplain' (Nat.le_of_eq heq) h, heq, List.drop_length]
    rfl

end

end Payload

/-! ## two requests with one token -/

namespace Verifier

section
variable {κ : Type}

/-- the names in the header of older signers -/
def listed (v : Verifier κ) : List String := SignedNames.split (v.fallback namesHeader)

theorem signedNames_eq_listed (v : Verifier κ) {claims : Claims} (h : claims.headers = none) :
    v.signedNames claims = v.listed := by
  rw [signedNames, h]
  rfl

/-- names that come from a value without a line feed have none -/
theorem newline_not_mem_listed (v : Verifier κ)
    (hvalues : ∀ name value, v.headers.get? name = some value → Payload.newline ∉ value)
    (name : String) (hname : name ∈ v.listed) : '\n' ∉ name.toList := by
  intro hm
  have htext := SignedNames.mem_of_mem_split _ name hname '\n' hm
  unfold fallback at htext
  cases hvalue : v.headers.get? namesHeader with
  | none =>
    rw [hvalue] at htext
    exact absurd htext (by decide)
  | some value =>
    rw [hvalue] at htext
    exact hvalues namesHeader value hvalue
      (Utf8.byte_mem_of_mem_decodeLossy (by decide) (by decide) value htext)

variable [VerifyingKey κ]

/-- a request without line feeds in path and values, accepted with a token for a key -/
structure AcceptedPlain (v : Verifier κ) (token : String) (t : Token) (key : κ) : Prop where
  resolved : v.resolveKey t.claims = .ok key
  path : ∀ path, v.path = some path → '\n' ∉ path.toList
  values : ∀ name value, v.headers.get? name = some value → Payload.newline ∉ value
  accepted : v.verify token = .ok ()

/-- the signed headers of such a request are lines, and its payload is what the key accepts -/
theorem AcceptedPlain.exists_lines {v : Verifier κ} {token : String} {t : Token} {key : κ}
    (h : v.AcceptedPlain token t key) (hparse : Token.parse token = .ok t)
    (hunlisted : t.claims.headers = none) :
    ∃ other headers, ValidMethod v.method ∧ '\n' ∉ other.toList ∧
      v.headers.select v.listed = .ok headers ∧ headers.length = v.listed.length ∧
      (∀ header ∈ headers, Payload.OneLine header) ∧
      acceptsPayload key t (Payload.build v.method other headers v.body) = true := by
  obtain ⟨path, headers, hacc⟩ := exists_accepted hparse h.resolved h.accepted
  obtain ⟨other, hother, hsignature⟩ := hacc.signature
  have hselected := hacc.selected
  rw [signedNames_eq_listed v hunlisted] at hselected
  obtain ⟨hnames, hfound⟩ := (HeaderTable.select_eq_ok_iff _ _ _).mp hselected
  refine ⟨other, headers, hacc.method, hother.newline_not_mem (h.path path hacc.path_eq), hselected,
    ?_, ?_, hsignature⟩
  · rw [← hnames, List.length_map]
  · intro header hm
    refine ⟨newline_not_mem_listed v h.values header.1 ?_,
      h.values header.1 header.2 (hfound header hm)⟩
    rw [← hnames]
    exact List.mem_map_of_mem hm

/-- **Two requests that are accepted with one token have the same body, or the lines of further
signed headers in front of one of them.**  Take a token whose claims do not list the signed names,
and a key that accepts its signature for one message at most.  Of two accepted requests without
line feeds in path and values, whatever their methods, paths and headers, the bodies are the same
exactly if the two headers `Tl-Signature-Headers` list equally many names; otherwise the body of
the request that lists fewer is the other body behind the lines of the further headers. -/
theorem bodies_of_unlisted {token : String} {t : Token} {key : κ}
    (hparse : Token.parse token = .ok t) (hunlisted : t.claims.headers = none)
    (hsingle : ∀ message message', VerifyingKey.accepts key message t.signature = true →
      VerifyingKey.accepts key message' t.signature = true → message = message')
    {v w : Verifier κ} (hv : v.AcceptedPlain token t key) (hw : w.AcceptedPlain token t key) :
    ∃ headers headers', v.headers.select v.listed = .ok headers ∧
      w.headers.select w.listed = .ok headers' ∧
      (v.body = w.body ↔ v.listed.length = w.listed.length) ∧
      (v.listed.length ≤ w.listed.length →
        v.body = (headers'.drop v.listed.length).flatMap Payload.headerLine ++ w.body) ∧
      (w.listed.length ≤ v.listed.length →
        w.body = (headers.drop w.listed.length).flatMap Payload.headerLine ++ v.body) := by
  obtain ⟨other, headers, hmethod, hother, hselected, hlength, hplain, hsignature⟩ :=
    hv.exists_lines hparse hunlisted
  obtain ⟨other', headers', hmethod', hother', hselected', hlength', hplain', hsignature'⟩ :=
    hw.exists_lines hparse hunlisted
  have hpayload := payload_inj (Token.head?_splitOn_of_parse hparse).2
    (hsingle _ _ hsignature hsignature')
  obtain ⟨-, -, hlines⟩ := Payload.requestLine_inj hmethod hmethod' hother hother' hpayload
  rw [← hlength, ← hlength']
  exact ⟨headers, headers', hselected, hselected', Payload.body_eq_iff hplain hplain' hlines,
    fun hle => Payload.body_eq_append hplain hplain' hle hlines,
    fun hle => Payload.body_eq_append hplain' hplain hle hlines.symm⟩

end

/-! Two requests with one payload: the first one has a signed header, the second one has its line
in the body. -/

/-- claims of an older signer -/
def unlistedClaims : Claims where
  algorithm := some Claims.es512
  kid := none
  version := none
  headers := none
  jku := none

def unlistedToken : String := Token.compact unlistedClaims.encode "AA"

/-- a key for the path `/a`, the value `1` and the body `b` -/
def unlistedKey : OneMessage :=
  ⟨Bytes.ofText (signingInput unlistedClaims.encode
    (Payload.build "POST" "/a" [("X-a", [byte '1'])] [byte 'b']))⟩

def headerCalls : List Call :=
  [.path "/a", .header versionHeader [byte '2'], .header namesHeader (Bytes.ofText "X-a"),
    .header "X-a" [byte '1'], .body [byte 'b']]

def bodyCalls : List Call :=
  [.path "/a", .header versionHeader [byte '2'], .header namesHeader [],
    .body (Bytes.ofText "X-a: 1\nb")]

theorem parse_unlistedToken :
    Token.parse unlistedToken = .ok ⟨unlistedClaims.encode, unlistedClaims, [0]⟩ :=
  Token.parse_compact unlistedClaims
    (Claims.decode_encode unlistedClaims fun _ hversion => by cases hversion) "AA" [0] (by decide)

theorem unlistedKey_single (message message' : Bytes)
    (h : VerifyingKey.accepts unlistedKey message [0] = true)
    (h' : VerifyingKey.accepts unlistedKey message' [0] = true) : message = message' :=
  ((OneMessage.accepts_iff _ _ _).mp h).trans ((OneMessage.accepts_iff _ _ _).mp h').symm

theorem acceptedPlain_of_calls {calls : List Call}
    (hpath : ((ofKey unlistedKey).applyAll calls).path = some "/a")
    (hvalues : ∀ value ∈ (added calls).map (·.2), Payload.newline ∉ value)
    (hok : ((ofKey unlistedKey).applyAll calls).verify unlistedToken = .ok ()) :
    ((ofKey unlistedKey).applyAll calls).AcceptedPlain unlistedToken
      ⟨unlistedClaims.encode, unlistedClaims, [0]⟩ unlistedKey where
  resolved := resolveKey_applyAll_ofKey unlistedKey calls unlistedClaims
  path := by
    intro path h
    obtain rfl := Option.some.inj (hpath.symm.trans h)
    decide
  values := by
    intro name value h
    rw [get?_applyAll_ofKey] at h
    exact hvalues value (HeaderTable.mem_of_lastValue? h)
  accepted := hok

theorem acceptedPlain_headerCalls : ((ofKey unlistedKey).applyAll headerCalls).AcceptedPlain
    unlistedToken ⟨unlistedClaims.encode, unlistedClaims, [0]⟩ unlistedKey :=
  acceptedPlain_of_calls rfl (by decide) (eq_ok_of_toBool (by decide +kernel))

theorem acceptedPlain_bodyCalls : ((ofKey unlistedKey).applyAll bodyCalls).AcceptedPlain
    unlistedToken ⟨unlistedClaims.encode, unlistedClaims, [0]⟩ unlistedKey :=
  acceptedPlain_of_calls rfl (by decide) (eq_ok_of_toBool (by decide +kernel))

/-- the longer body is the shorter one behind a header line -/
theorem body_bodyCalls : ((ofKey unlistedKey).applyAll bodyCalls).body
    = Payload.headerLine ("X-a", [byte '1'])
        ++ ((ofKey unlistedKey).applyAll headerCalls).body := by
  obtain ⟨headers, -, hselected, -, -, -, hbody⟩ := bodies_of_unlisted parse_unlistedToken rfl
    unlistedKey_single acceptedPlain_headerCalls acceptedPlain_bodyCalls
  have hnames : ((ofKey unlistedKey).applyAll headerCalls).listed = ["X-a"] := by decide
  have hnone : ((ofKey unlistedKey).applyAll bodyCalls).listed = [] := by decide
  have hvalues : ((ofKey unlistedKey).applyAll headerCalls).headers.select ["X-a"]
      = .ok [("X-a", [byte '1'])] :=
    (HeaderTable.select_eq_ok_iff _ _ _).mpr ⟨rfl, by decide⟩
  rw [hnames] at hselected
  obtain rfl := Except.ok.inj (hselected.symm.trans hvalues)
  rw [hbody (by rw [hnone]; exact Nat.zero_le _), hnone]
  rfl

/-- **A token alone does not determine the body** if its claims do not list the signed names. -/
theorem unlisted_body_not_determined :
    ¬ ∀ (key : OneMessage) (token : String) (t : Token) (v w : Verifier OneMessage),
      Token.parse token = .ok t → t.claims.headers = none →
      (∀ message message', VerifyingKey.accepts key message t.signature = true →
        VerifyingKey.accepts key message' t.signature = true → message = message') →
      v.AcceptedPlain token t key → w.AcceptedPlain token t key → v.body = w.body := by
  intro h
  have hbody := h unlistedKey unlistedToken _ _ _ parse_unlistedToken rfl unlistedKey_single
    acceptedPlain_headerCalls acceptedPlain_bodyCalls
  exact absurd hbody (by decide)

end Verifier

end RequestSigning
