import RequestSigning.Proofs.HeaderUse
import RequestSigning.Proofs.Http.Signature

/-!
# Received requests: what was set on the verifier before

A verifier that is given a request may have method, path, body and headers from earlier calls.  All
of them give way to the request, the headers for names that are on it (`get?_received`): what stays
of the earlier calls is the key source, the required names, and the headers with other names.

`verify_received` says so of two verifiers, and of one that is made anew (`fresh`): it is given each
name of the request once, with its last value, and no earlier header of such a name.  `FreshFor`
lists what such a verifier holds, whichever calls led to it.
-/

namespace RequestSigning

namespace HeaderTable

/-! ## lists with the same last values -/

theorem exists_lastValue? {headers : List (String × Bytes)} {name : String}
    (h : ∃ header ∈ headers, key header.1 = key name) :
    ∃ value, lastValue? headers name = some value := by
  induction headers with
  | nil =>
    obtain ⟨header, hm, -⟩ := h
    exact absurd hm List.not_mem_nil
  | cons first headers ih =>
    obtain ⟨header, hm, hkey⟩ := h
    rw [lastValue?_cons]
    rcases List.mem_cons.mp hm with rfl | hm
    · rw [if_pos hkey]
      cases lastValue? headers name with
      | none => exact ⟨header.2, rfl⟩
      | some value => exact ⟨value, rfl⟩
    · obtain ⟨value, hvalue⟩ := ih ⟨header, hm, hkey⟩
      rw [hvalue]
      exact ⟨value, rfl⟩

/-- leaving out headers of other names leaves the last value of a name -/
theorem lastValue?_filter {headers : List (String × Bytes)} {name : String}
    {p : String × Bytes → Bool}
    (h : ∀ header ∈ headers, key header.1 = key name → p header = true) :
    lastValue? (headers.filter p) name = lastValue? headers name := by
  induction headers with
  | nil => rfl
  | cons header headers ih =>
    have hrest := ih fun other hm => h other (List.mem_cons_of_mem header hm)
    rw [lastValue?_cons, List.filter_cons]
    by_cases hp : p header = true
    · rw [if_pos hp, lastValue?_cons, hrest]
    · have hkey : key header.1 ≠ key name := fun e => hp (h header List.mem_cons_self e)
      rw [if_neg hp, if_neg hkey, Option.or_none, hrest]

/-- the last header of each name -/
def lastOnly : List (String × Bytes) → List (String × Bytes)
  | [] => []
  | header :: headers =>
    if headers.any fun other => key other.1 = key header.1 then lastOnly headers
    else header :: lastOnly headers

theorem lastValue?_lastOnly (headers : List (String × Bytes)) (name : String) :
    lastValue? (lastOnly headers) name = lastValue? headers name := by
  induction headers with
  | nil => rfl
  | cons header headers ih =>
    rw [lastOnly, lastValue?_cons]
    split
    · rename_i hlater
      rw [ih]
      by_cases hkey : key header.1 = key name
      · -- a later header of the name hides this one
        obtain ⟨other, hm, hother⟩ := List.any_eq_true.mp hlater
        obtain ⟨value, hvalue⟩ := exists_lastValue?
          ⟨other, hm, (of_decide_eq_true hother).trans hkey⟩
        rw [hvalue, Option.some_or]
      · rw [if_neg hkey, Option.or_none]
    · rw [lastValue?_cons, ih]

theorem lastOnly_sublist (headers : List (String × Bytes)) : (lastOnly headers).Sublist headers := by
  induction headers with
  | nil => exact List.Sublist.refl []
  | cons header headers ih =>
    rw [lastOnly]
    split
    · exact ih.cons header
    · exact ih.cons_cons header

/-- no two of them have one name -/
theorem pairwise_lastOnly (headers : List (String × Bytes)) :
    (lastOnly headers).Pairwise fun a b => key a.1 ≠ key b.1 := by
  induction headers with
  | nil => exact List.Pairwise.nil
  | cons header headers ih =>
    rw [lastOnly]
    split
    · exact ih
    · rename_i hlater
      refine List.pairwise_cons.mpr ⟨fun other hm hkey => hlater ?_, ih⟩
      exact List.any_eq_true.mpr
        ⟨other, (lastOnly_sublist headers).subset hm, decide_eq_true hkey.symm⟩

end HeaderTable

namespace Http.Request

open HeaderTable (lastValue?)
open Verifier (Call SameButHeaders added ofSource)

/-! ## the names of a request -/

/-- a name is on a request, blanks at its ends and case aside -/
def Has (r : Request) (name : String) : Prop :=
  ∃ header ∈ r.headers, HeaderTable.key header.1 = HeaderTable.key name

instance (r : Request) (name : String) : Decidable (r.Has name) :=
  inferInstanceAs (Decidable (∃ header ∈ r.headers, _))

variable {r : Request} {name : String}

theorem lastValue?_of_not_has (h : ¬ r.Has name) : lastValue? r.headers name = none :=
  HeaderTable.lastValue?_eq_none fun header hm hkey => h ⟨header, hm, hkey⟩

theorem has_congr {a b : String} (h : HeaderTable.key a = HeaderTable.key b) :
    r.Has a ↔ r.Has b := by
  unfold Has
  rw [h]

/-- a name of a request is that of one of its fields, and has its last value -/
theorem exists_field_of_has (h : r.Has name) :
    ∃ f value, HeaderTable.key name = f.text ∧ (r.values f).getLast? = some value ∧
      lastValue? r.headers name = some value.octets := by
  obtain ⟨octets, hoctets⟩ := HeaderTable.exists_lastValue? h
  obtain ⟨header, hm, hkey⟩ := h
  obtain ⟨field, -, rfl⟩ := List.mem_map.mp hm
  have hname : HeaderTable.key name = field.1.text := hkey.symm.trans field.1.key_text
  have hlast := lastValue?_headers r name field.1 hname
  rw [hoctets] at hlast
  obtain ⟨value, hvalue, rfl⟩ := Option.map_eq_some_iff.mp hlast.symm
  exact ⟨field.1, value, hname, hvalue, hoctets⟩

section
variable {κ : Type} {v : Verifier κ} {source : KeySource κ} {calls : List Call}

theorem added_received : added [.method r.method.name, .path r.target.path, .headers r.headers,
    .body r.body] = r.headers := List.append_nil r.headers

/-- a verifier that is given a request finds its last value of a name, or what was set before -/
theorem get?_received (name : String) :
    (r.received ((ofSource source).applyAll calls)).headers.get? name
      = (lastValue? r.headers name).or (lastValue? (added calls) name) := by
  rw [received, ← Verifier.applyAll_append, Verifier.get?_applyAll_ofSource,
    Verifier.added_append, added_received, HeaderTable.lastValue?_append]

/-! ## verifiers made anew -/

/-- what a verifier holds that is made anew for a request, for a key source, required names and
headers that were set before -/
structure FreshFor (r : Request) (source : KeySource κ) (required : List String)
    (earlier : List (String × Bytes)) (w : Verifier κ) : Prop where
  source : w.source = source
  required : w.required = required
  method : w.method = r.method.name
  path : w.path = some r.target.path
  body : w.body = r.body
  last : ∀ f value, (r.values f).getLast? = some value →
    ∀ name, HeaderTable.key name = f.text → w.headers.get? name = some value.octets
  other : ∀ name, ¬ r.Has name → w.headers.get? name = lastValue? earlier name

/-- a verifier with the other headers that were set before, and with each name of the request
once -/
def fresh (r : Request) (source : KeySource κ) (required : List String)
    (earlier : List (String × Bytes)) : Verifier κ :=
  (ofSource source).applyAll
    [.require required, .headers (earlier.filter fun header => ¬ r.Has header.1),
      .headers (HeaderTable.lastOnly r.headers), .method r.method.name, .path r.target.path,
      .body r.body]

theorem get?_fresh (required : List String) (earlier : List (String × Bytes)) (name : String) :
    (r.fresh source required earlier).headers.get? name
      = (lastValue? r.headers name).or
          (lastValue? (earlier.filter fun header => ¬ r.Has header.1) name) := by
  rw [fresh, Verifier.get?_applyAll_ofSource]
  show lastValue? ((earlier.filter fun header => ¬ r.Has header.1)
    ++ (HeaderTable.lastOnly r.headers ++ [])) name = _
  rw [List.append_nil, HeaderTable.lastValue?_append, HeaderTable.lastValue?_lastOnly]

theorem freshFor_fresh (required : List String) (earlier : List (String × Bytes)) :
    r.FreshFor source required earlier (r.fresh source required earlier) where
  source := rfl
  required := List.nil_append required
  method := rfl
  path := rfl
  body := rfl
  last f value hvalue name hname := by
    rw [get?_fresh, lastValue?_headers r name f hname, hvalue]
    rfl
  other name hname := by
    rw [get?_fresh, lastValue?_of_not_has hname, Option.none_or]
    refine HeaderTable.lastValue?_filter fun header _ hkey => ?_
    exact decide_eq_true fun hhas => hname ((has_congr hkey).mp hhas)

theorem FreshFor.get?_eq {required : List String} {w : Verifier κ}
    (h : r.FreshFor source required (added calls) w) (name : String) :
    (r.received ((ofSource source).applyAll calls)).headers.get? name = w.headers.get? name := by
  rw [get?_received]
  by_cases hname : r.Has name
  · obtain ⟨f, value, hkey, hlast, hvalue⟩ := exists_field_of_has hname
    rw [hvalue, h.last f value hlast name hkey, Option.some_or]
  · rw [lastValue?_of_not_has hname, h.other name hname, Option.none_or]

/-! ## verifying -/

variable [VerifyingKey κ]

/-- earlier headers that agree on all names but those of the request lead to one result -/
theorem verify_eq_of_same {calls' : List Call}
    (hrequired : ((ofSource source).applyAll calls).required
      = ((ofSource source).applyAll calls').required)
    (hagree : ∀ name, ¬ r.Has name →
      lastValue? (added calls) name = lastValue? (added calls') name) :
    r.verify ((ofSource source).applyAll calls) = r.verify ((ofSource source).applyAll calls') := by
  have hsource : ((ofSource source).applyAll calls).source
      = ((ofSource source).applyAll calls').source := by
    rw [Verifier.source_applyAll, Verifier.source_applyAll]
  have hsame : SameButHeaders (r.received ((ofSource source).applyAll calls))
      (r.received ((ofSource source).applyAll calls')) := ⟨hsource, rfl, rfl, rfl, hrequired⟩
  refine bind_congr fun token => Verifier.verify_congr hsame token fun t _ name _ => ?_
  rw [get?_received, get?_received]
  by_cases hname : r.Has name
  · obtain ⟨f, value, -, -, hvalue⟩ := exists_field_of_has hname
    rw [hvalue, Option.some_or, Option.some_or]
  · rw [hagree name hname]

theorem FreshFor.verify_eq {w : Verifier κ}
    (h : r.FreshFor source ((ofSource source).applyAll calls).required (added calls) w)
    {token : String} (htoken : r.token = .ok token) :
    r.verify ((ofSource source).applyAll calls) = w.verify token := by
  have hsource : (r.received ((ofSource source).applyAll calls)).source = w.source := by
    rw [h.source]
    exact Verifier.source_applyAll (ofSource source) calls
  have hsame : SameButHeaders (r.received ((ofSource source).applyAll calls)) w :=
    ⟨hsource, h.method.symm, h.path.symm, h.body.symm, h.required.symm⟩
  rw [Request.verify, htoken, ok_bind]
  exact Verifier.verify_congr hsame token fun _ _ name _ => h.get?_eq name

/-- the token of a request whose first value under the name of the signature is visible -/
theorem exists_token {value : FieldValue} (hget : r.get? signatureField = some value)
    (hvisible : ∀ x ∈ value.octets, isVisibleOctet x = true) :
    ∃ token, Bytes.ofText token = value.octets ∧ r.token = .ok token := by
  have hascii : ∀ x ∈ value.octets, x.toNat < 128 := fun x hx =>
    toNat_lt_of_isVisibleOctet x (hvisible x hx)
  have hoctets := Bytes.ofChars_map_ofNat value.octets hascii
  refine ⟨String.ofList (value.octets.map fun b => Char.ofNat b.toNat), ?_, ?_⟩
  · rw [Bytes.ofText_ofList, hoctets]
  · simp only [Request.token, hget, FieldValue.text?, if_pos (List.all_eq_true.mpr hvisible)]

/-- **What was set on a verifier before does not override a request.**  Take two sequences of calls
for one key source that lead to the same required names, and whose headers have the same last value
under each name that is not on the request.  Then a request is verified with the same result,
errors included, whatever method, path, body and other headers were set.  If the first value under
the name of the signature is printable ASCII with tabs, the result is that of any verifier made
anew for the request, of `fresh` for one, on this value; and there no name of the request is given
twice. -/
theorem verify_received (r : Request) (source : KeySource κ) (calls : List Call) :
    (∀ calls', ((ofSource source).applyAll calls).required
          = ((ofSource source).applyAll calls').required →
        (∀ name, ¬ r.Has name → lastValue? (added calls) name = lastValue? (added calls') name) →
        r.verify ((ofSource source).applyAll calls)
          = r.verify ((ofSource source).applyAll calls')) ∧
      (∀ value, r.get? signatureField = some value →
        (∀ x ∈ value.octets, isVisibleOctet x = true) →
        ∃ token, Bytes.ofText token = value.octets ∧ ∀ w,
          r.FreshFor source ((ofSource source).applyAll calls).required (added calls) w →
            r.verify ((ofSource source).applyAll calls) = w.verify token) ∧
      r.FreshFor source ((ofSource source).applyAll calls).required (added calls)
        (r.fresh source ((ofSource source).applyAll calls).required (added calls)) ∧
      (HeaderTable.lastOnly r.headers).Pairwise
        fun a b => HeaderTable.key a.1 ≠ HeaderTable.key b.1 := by
  refine ⟨fun calls' hrequired hagree => verify_eq_of_same hrequired hagree, ?_,
    freshFor_fresh _ _, HeaderTable.pairwise_lastOnly _⟩
  intro value hget hvisible
  obtain ⟨token, hoctets, htoken⟩ := exists_token hget hvisible
  exact ⟨token, hoctets, fun w hw => hw.verify_eq htoken⟩

end

/-! A request with two values of the signed header, for a verifier on which another method, path,
body and value of that header were set, and for one without these. -/

/-- the token for the path `/a` and the value `1` of the header `X-a` -/
def agreeToken : String := Token.compact Verifier.agreeClaims.encode "AA"

/-- a request with two values of the signed header, the signed one last -/
def repeated : Request :=
  { twoValues with
    method := ⟨"POST", by decide⟩
    fields := (signatureField, ⟨Bytes.ofText agreeToken, by decide +kernel⟩)
      :: twoValues.fields.reverse }

/-- earlier calls for all that the request has, and for one header that it does not have -/
def overridden : List Call :=
  [.method "not a method", .header "via" [byte 'q'], .header "X-A " [byte '9'], .path "nowhere",
    .body [byte 'b'], .header "Via" [byte 'p']]

def plain : List Call := [.header "vIA" [byte 'p']]

theorem verify_received_repeated :
    repeated.verify ((Verifier.ofKey Verifier.agreeKey).applyAll overridden) = .ok () ∧
      repeated.verify ((Verifier.ofKey Verifier.agreeKey).applyAll plain) = .ok () ∧
      (repeated.fresh (.fixed Verifier.agreeKey) [] (added overridden)).verify agreeToken
        = .ok () := by
  have hplain : repeated.verify ((Verifier.ofKey Verifier.agreeKey).applyAll plain) = .ok () :=
    eq_ok_of_toBool (by decide +kernel)
  obtain ⟨hagree, hfresh, hheld, -⟩ :=
    verify_received repeated (.fixed Verifier.agreeKey) overridden
  have hsame : ∀ name, ¬ repeated.Has name →
      lastValue? (added overridden) name = lastValue? (added plain) name := by
    intro name hname
    have hother : HeaderTable.key "X-A " ≠ HeaderTable.key name := by
      intro hkey
      have hhas : repeated.Has "X-A " := by decide
      exact hname ((has_congr hkey).mp hhas)
    have hvia : HeaderTable.key "via" = HeaderTable.key "Via" := by decide
    have hvia' : HeaderTable.key "vIA" = HeaderTable.key "Via" := by decide
    show lastValue? [("via", [byte 'q']), ("X-A ", [byte '9']), ("Via", [byte 'p'])] name
      = lastValue? [("vIA", [byte 'p'])] name
    simp only [HeaderTable.lastValue?_cons, HeaderTable.lastValue?_nil, hvia, hvia', if_neg hother,
      Option.none_or]
    by_cases hkey : HeaderTable.key "Via" = HeaderTable.key name
    · simp only [if_pos hkey, Option.some_or]
    · simp only [if_neg hkey, Option.none_or]
  have hoverridden := (hagree plain rfl hsame).trans hplain
  obtain ⟨token, hoctets, hverify⟩ := hfresh _ rfl (by decide +kernel)
  obtain rfl : token = agreeToken := Bytes.ofText_inj hoctets
  exact ⟨hoverridden, hplain, (hverify _ hheld).symm.trans hoverridden⟩

end Http.Request

end RequestSigning
