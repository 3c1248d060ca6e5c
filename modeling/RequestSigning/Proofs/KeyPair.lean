import RequestSigning.Proofs.Ecdsa
import RequestSigning.Proofs.Key.Private
import RequestSigning.Proofs.SignVerify

/-!
# Key pairs

The public key of a private key is the multiple of the generator with its scalar, so that

* `PrivateKey.publicKey_inj`                  it belongs to no other private key;
* `PrivateKey.accepts_publicKey_iff`          it accepts what can be made with the scalar and some
                                              secret number;
* `PrivateKey.exists_signature_of_strategy`   among that is each answer of the private key.

A signer that asks the private key and a verifier with the public key therefore need no assumption
about signatures: the request of the signer is accepted (`verify_of_strategy`).
-/

namespace RequestSigning

open HeaderTable (lastValue?)

namespace PrivateKey

theorem publicKey_inj {k k' : PrivateKey} (h : k.publicKey = k'.publicKey) : k = k' := by
  have hmultiples := congrArg (fun q : PublicKey => q.point.toGroup) h
  simp only [toGroup_publicKey] at hmultiples
  exact (eq_iff_scalar_eq k k').mpr (congrArg Fin.val (Curve.smul_generator_inj hmultiples))

theorem accepts_publicKey_iff (k : PrivateKey) (message signature : Bytes) :
    k.publicKey.accepts message signature = true ↔
      ∃ secret sig, Ecdsa.signWith? k.multiplier (Ecdsa.digest message) secret = some sig ∧
        signature = sig.encode := by
  rw [PublicKey.accepts]
  exact Ecdsa.accepts_iff k.toGroup_publicKey message signature

theorem accepts_of_sign? {k : PrivateKey} {message signature : Bytes}
    (h : k.sign? message = some signature) : k.publicKey.accepts message signature = true := by
  rw [sign?] at h
  rw [PublicKey.accepts]
  exact Ecdsa.accepts_of_sign? k.toGroup_publicKey h

/-- the answer of a private key is the text of a signature that the public key accepts -/
theorem exists_signature_of_strategy {k : PrivateKey} {input text : String}
    (h : k.strategy input = .ok text) : ∃ signature,
      Base64.decode? (Bytes.ofText text) = some signature ∧
        VerifyingKey.accepts k.publicKey (Bytes.ofText input) signature = true := by
  rw [strategy] at h
  obtain ⟨signature, hsigned, rfl⟩ := (answer_eq_ok_iff _ _).mp h
  exact ⟨signature, Base64.decode?_encode signature, accepts_of_sign? hsigned⟩

end PrivateKey

/-- **What is signed with a private key is accepted with its public key.**  Take any run of a signer
that asks the private key and gives a token, and any verifier with the public key, with the method
of the signer up to case, its path and body, with headers of which the last value of each signed
name is the signed one, and asking for signed names only.  It accepts the token. -/
theorem verify_of_strategy {k : PrivateKey} {s : Signer} {v : Verifier PublicKey} {kid : String}
    {signerCalls : List Signer.Call} {calls : List Verifier.Call} {token : String}
    (hs : s = (Signer.new kid).applyAll signerCalls)
    (hv : v = (Verifier.ofKey k.publicKey).applyAll calls)
    (hrun : Id.run (s.sign (m := Id) k.strategy) = .ok token)
    (hmethod : Text.EqIgnoringCase v.method s.method) (hpath : v.path = s.path)
    (hbody : v.body = s.body)
    (hvalues : ∀ h ∈ Signer.added signerCalls, lastValue? (Verifier.added calls) h.1 = some h.2)
    (hrequired : ∀ name ∈ v.required, ∃ h ∈ Signer.added signerCalls,
      Text.EqIgnoringCase (Text.trim h.1) (Text.trim name)) : v.verify token = .ok () := by
  obtain ⟨p, text, hp, hanswer, rfl⟩ := (Signer.run_sign_eq_ok_iff s k.strategy token).mp hrun
  obtain ⟨signature, htext, hkey⟩ := PrivateKey.exists_signature_of_strategy hanswer
  have hfound : ∀ h ∈ Signer.added signerCalls, v.headers.get? h.1 = some h.2 := by
    intro h hm
    rw [hv, Verifier.get?_applyAll_ofKey]
    exact hvalues h hm
  obtain ⟨path, hacc, -⟩ := accepted_of_prepare (collected_of_prepare hs hp) hp htext hkey
    (source_eq_fixed hv) hmethod hpath hbody hfound hrequired
  exact (Verifier.verify_eq_ok_iff v _).mpr ⟨path, _, k.publicKey, _, hacc⟩

end RequestSigning
