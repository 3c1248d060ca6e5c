import RequestSigning.Key.Public
import RequestSigning.Proofs.Verifier

/-!
# Key sets and single keys

A verifier looks for a key once the values on it and the token are found to be well formed
(`Verifier.opened`), and before it looks at anything else in the token.  So the errors come in this
order, whatever the source of the key: first those of `opened`, then those of `resolveKey`; and all
that follows depends on the key alone, not on where it comes from (`verify_congr_of_resolveKey`).

`verify_ofKeySet` compares a verifier that has a key set with one that has a single key.  The name
in a token is not verified when it selects a key, but it selects one key only: of all keys in the
set, the first one with the name decides.
-/

namespace RequestSigning

/-- the first key with a name decides what the name stands for -/
theorem KeySet.resolve_congr {κ : Type} [VerifyingKey κ] {keys keys' : KeySet} {kid : String}
    (h : (keys.keys.find? fun k => k.kid = some kid) = keys'.keys.find? fun k => k.kid = some kid) :
    (keys.resolve kid : Except Error κ) = keys'.resolve kid := by
  rw [resolve, resolve, find, find, h]

namespace Verifier

section
variable {κ : Type}

/-- the token of a request, if the values on the verifier can be used and the token can be read -/
def opened (v : Verifier κ) (token : String) : Except Error Token := do
  let _ ← checkMethod v.method
  let _ ← checkPath v.path
  Token.parse token

theorem opened_eq_parse {v : Verifier κ} (hmethod : ValidMethod v.method) {path : String}
    (hpath : v.path = some path) (hvalid : ValidPath path) (token : String) :
    v.opened token = Token.parse token := by
  rw [opened, (checkMethod_eq_ok_iff _ _).mpr ⟨hmethod, rfl⟩, ok_bind,
    (checkPath_eq_ok_iff _ _).mpr ⟨hpath, hvalid⟩, ok_bind]

theorem parse_of_opened {v : Verifier κ} {token : String} {t : Token}
    (h : v.opened token = .ok t) : Token.parse token = .ok t := by
  obtain ⟨_, -, h⟩ := (bind_eq_ok_iff _ _ _).mp h
  obtain ⟨_, -, hparse⟩ := (bind_eq_ok_iff _ _ _).mp h
  exact hparse

/-- the same sequence of calls sets the same values, whatever the source of the key -/
theorem applyAll_ofSource (source source' : KeySource κ) (calls : List Call) :
    (ofSource source).applyAll calls = { (ofSource source').applyAll calls with source } := by
  have hstep : ∀ (v : Verifier κ) (call : Call),
      { v with source }.apply call = { v.apply call with source } := by
    intro v call
    cases call <;> rfl
  have hrun : ∀ v : Verifier κ, { v with source }.applyAll calls
      = { v.applyAll calls with source } := by
    induction calls with
    | nil => exact fun _ => rfl
    | cons call calls ih =>
      intro v
      show ({ v with source }.apply call).applyAll calls
        = { (v.apply call).applyAll calls with source }
      rw [hstep, ih]
  exact hrun (ofSource source')

variable [VerifyingKey κ]

theorem verify_eq_error_of_opened {v : Verifier κ} {token : String} {e : Error}
    (h : v.opened token = .error e) : v.verify token = .error e := by
  apply (bind_eq_error_iff _ _ _).mpr
  rcases (bind_eq_error_iff _ _ _).mp h with hmethod | ⟨method, hmethod, h⟩
  · exact Or.inl hmethod
  refine Or.inr ⟨method, hmethod, (bind_eq_error_iff _ _ _).mpr ?_⟩
  rcases (bind_eq_error_iff _ _ _).mp h with hpath | ⟨path, hpath, hparse⟩
  · exact Or.inl hpath
  exact Or.inr ⟨path, hpath, (bind_eq_error_iff _ _ _).mpr (Or.inl hparse)⟩

theorem verify_eq_error_of_resolveKey {v : Verifier κ} {token : String} {t : Token} {e : Error}
    (hopened : v.opened token = .ok t) (h : v.resolveKey t.claims = .error e) :
    v.verify token = .error e := by
  obtain ⟨method, hmethod, hopened⟩ := (bind_eq_ok_iff _ _ _).mp hopened
  obtain ⟨path, hpath, hparse⟩ := (bind_eq_ok_iff _ _ _).mp hopened
  rw [verify, hmethod, ok_bind, hpath, ok_bind, hparse, ok_bind, h]
  rfl

/-- **Behind the search for the key its source has no effect.** -/
theorem verify_congr_of_resolveKey (v : Verifier κ) (source : KeySource κ) (token : String)
    (h : ∀ t, Token.parse token = .ok t →
      { v with source }.resolveKey t.claims = v.resolveKey t.claims) :
    { v with source }.verify token = v.verify token := by
  refine bind_congr_of_ok _ _ _ fun method _ => ?_
  refine bind_congr_of_ok _ _ _ fun path _ => ?_
  refine bind_congr_of_ok _ _ _ fun t ht => ?_
  rw [h t ht]
  rfl

/-- **A key set stands for the key that the token names.**  If the values on a verifier cannot be
used or the token cannot be read, a verifier with a key set gives the error that it gives with any
single key.  Otherwise a token without a name of a key is refused for that, and one whose name the
key set does not resolve is refused with the error of the key set, whatever else the token says; and
if there is a key, the result is that of this key alone.  So two key sets that have the same first
key under the name, or both none, give the same result. -/
theorem verify_ofKeySet {v : Verifier κ} {keys : KeySet} {calls : List Call}
    (hv : v = (ofKeySet keys).applyAll calls) (token : String) :
    (∀ e, v.opened token = .error e → v.verify token = .error e ∧
        ∀ key : κ, ((ofKey key).applyAll calls).verify token = .error e) ∧
      (∀ t, v.opened token = .ok t →
        (t.claims.kid = none → v.verify token = .error .missingKid) ∧
        ∀ kid, t.claims.kid = some kid →
          (∀ e, (keys.resolve kid : Except Error κ) = .error e → v.verify token = .error e) ∧
          ∀ key : κ, keys.resolve kid = .ok key →
            v.verify token = ((ofKey key).applyAll calls).verify token) ∧
      ∀ keys' : KeySet, (∀ t kid, Token.parse token = .ok t → t.claims.kid = some kid →
          (keys.keys.find? fun k => k.kid = some kid)
            = keys'.keys.find? fun k => k.kid = some kid) →
        v.verify token = ((ofKeySet keys' : Verifier κ).applyAll calls).verify token := by
  have hsource : v.source = .named keys := by
    rw [hv, source_applyAll]
    rfl
  have hother : ∀ source : KeySource κ,
      (ofSource source).applyAll calls = { v with source } := by
    intro source
    rw [hv]
    exact applyAll_ofSource source (.named keys) calls
  refine ⟨?_, ?_, ?_⟩
  · intro e h
    refine ⟨verify_eq_error_of_opened h, fun key => verify_eq_error_of_opened ?_⟩
    rw [ofKey, hother]
    exact h
  · intro t hopened
    refine ⟨?_, ?_⟩
    · intro hkid
      apply verify_eq_error_of_resolveKey hopened
      simp only [resolveKey, hsource, hkid]
    · intro kid hkid
      refine ⟨?_, ?_⟩
      · intro e h
        apply verify_eq_error_of_resolveKey hopened
        simp only [resolveKey, hsource, hkid, h]
      · intro key h
        rw [ofKey, hother]
        refine (verify_congr_of_resolveKey v (.fixed key) token fun t' ht' => ?_).symm
        obtain rfl := Except.ok.inj (ht'.symm.trans (parse_of_opened hopened))
        simp only [resolveKey, hsource, hkid, h]
  · intro keys' h
    rw [ofKeySet, hother]
    refine (verify_congr_of_resolveKey v (.named keys') token fun t ht => ?_).symm
    simp only [resolveKey, hsource]
    cases hkid : t.claims.kid with
    | none => rfl
    | some kid => exact (KeySet.resolve_congr (h t kid ht hkid)).symm

end

/-! A key set with a key of another type and two keys under one name. -/

/-- a key that cannot be imported -/
def foreignKey (kid : String) : WebKey where
  kty := "RSA"
  kid := some kid
  crv := none
  x := none
  y := none
  d := none
  algorithm := none
  use := none

def mixedKeys : KeySet :=
  ⟨[foreignKey "r", (PublicKey.mk Curve.generator).toWebKey "k", foreignKey "k"]⟩

/-- a token that names a key -/
def tokenNaming (kid : String) : String :=
  Token.compact (Claims.ofSigner kid [] none).encode "AA"

theorem parse_tokenNaming (kid : String) : Token.parse (tokenNaming kid)
    = .ok ⟨(Claims.ofSigner kid [] none).encode, Claims.ofSigner kid [] none, [0]⟩ :=
  Token.parse_compact _ (Claims.decode_encode_ofSigner kid [] none) "AA" [0] (by decide)

/-- a verifier with that key set -/
def mixed : Verifier PublicKey := (ofKeySet mixedKeys).applyAll [.path "/a"]

theorem verify_mixed :
    mixed.verify (tokenNaming "r") = .error (.unsupportedKey "r" "RSA" "") ∧
      mixed.verify (tokenNaming "k")
        = ((ofKey (PublicKey.mk Curve.generator)).applyAll [.path "/a"]).verify (tokenNaming "k") ∧
      mixed.verify (tokenNaming "k")
        = ((ofKeySet ⟨mixedKeys.keys.take 2⟩ : Verifier PublicKey).applyAll [.path "/a"]).verify
          (tokenNaming "k") := by
  have hopened : ∀ kid, mixed.opened (tokenNaming kid)
      = .ok ⟨(Claims.ofSigner kid [] none).encode, Claims.ofSigner kid [] none, [0]⟩ := by
    intro kid
    rw [← parse_tokenNaming]
    have hmethod : ValidMethod mixed.method := by decide
    have hvalid : ValidPath "/a" := by decide
    exact opened_eq_parse hmethod rfl hvalid _
  have hforeign : (mixedKeys.resolve "r" : Except Error PublicKey)
      = .error (.unsupportedKey "r" "RSA" "") := eq_error_of_error? (by decide)
  have hkey : mixedKeys.resolve "k" = .ok (PublicKey.mk Curve.generator) :=
    eq_ok_of_toOption (by decide +kernel)
  have hmixed : mixed = (ofKeySet mixedKeys).applyAll [.path "/a"] := rfl
  obtain ⟨-, hr, -⟩ := verify_ofKeySet hmixed (tokenNaming "r")
  obtain ⟨-, hk, hsets⟩ := verify_ofKeySet hmixed (tokenNaming "k")
  refine ⟨((hr _ (hopened "r")).2 "r" rfl).1 _ hforeign, ((hk _ (hopened "k")).2 "k" rfl).2 _ hkey,
    hsets ⟨mixedKeys.keys.take 2⟩ fun t kid hparse hkid => ?_⟩
  rw [parse_tokenNaming] at hparse
  obtain rfl := Except.ok.inj hparse
  obtain rfl : "k" = kid := Option.some.inj hkid
  decide +kernel

end Verifier

end RequestSigning
