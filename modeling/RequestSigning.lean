import RequestSigning.Asn1.Der
import RequestSigning.Asn1.KeyInfo
import RequestSigning.Asn1.Oid
import RequestSigning.Base64
import RequestSigning.Bytes
import RequestSigning.Claims
import RequestSigning.Curve.Field
import RequestSigning.Curve.Limbs
import RequestSigning.Curve.Point
import RequestSigning.Decimal.Shortest
import RequestSigning.Ecdsa
import RequestSigning.Error
import RequestSigning.Future
import RequestSigning.Hash.Sha512
import RequestSigning.HeaderTable
import RequestSigning.Http.Field
import RequestSigning.Http.Request
import RequestSigning.Http.Signature
import RequestSigning.Http.Target
import RequestSigning.Inspect
import RequestSigning.Json.Number
import RequestSigning.Json.Printer
import RequestSigning.Json.Reader
import RequestSigning.Json.Scan
import RequestSigning.Json.Value
import RequestSigning.Key.Document
import RequestSigning.Key.Private
import RequestSigning.Key.Public
import RequestSigning.KeySet
import RequestSigning.Main
import RequestSigning.Payload
import RequestSigning.Pem
import RequestSigning.Proofs.Base64
import RequestSigning.Proofs.Claims
import RequestSigning.Proofs.Except
import RequestSigning.Proofs.HeaderTable
import RequestSigning.Proofs.Http.Request
import RequestSigning.Proofs.Http.Signature
import RequestSigning.Proofs.Json.Records
import RequestSigning.Proofs.Json.Strings
import RequestSigning.Proofs.Payload
import RequestSigning.Proofs.SignVerify
import RequestSigning.Proofs.Signer
import RequestSigning.Proofs.Text.Names
import RequestSigning.Proofs.Text.Utf8
import RequestSigning.Proofs.Token
import RequestSigning.Proofs.Verifier
import RequestSigning.RequestLine
import RequestSigning.SignedNames
import RequestSigning.Signer
import RequestSigning.Text.AsciiCase
import RequestSigning.Text.Blank
import RequestSigning.Text.Split
import RequestSigning.Text.Utf8
import RequestSigning.Token
import RequestSigning.Verifier
import RequestSigning.WebKey
import RequestSigning.Proofs.Verdict
import RequestSigning.Proofs.HeaderUse
import RequestSigning.Proofs.TrailingSlash
import RequestSigning.Proofs.NamesHeader
import RequestSigning.Proofs.HeaderList
import RequestSigning.Proofs.KeySource
import RequestSigning.Proofs.Key.NamedCurves
import RequestSigning.Proofs.OmittedClaims
import RequestSigning.Proofs.Base64.Texts
import RequestSigning.Proofs.TokenGrammar
import RequestSigning.Proofs.Json.Numbers
import RequestSigning.Proofs.Json.Values
import RequestSigning.Proofs.Key.Public
import RequestSigning.Proofs.TokenRoundTrip
import RequestSigning.Proofs.KeySet
import RequestSigning.Proofs.Key.Document
import RequestSigning.Proofs.RequestLine
import RequestSigning.Proofs.SignerCalls
import RequestSigning.Proofs.Http.Signing
import RequestSigning.Proofs.Asn1
import RequestSigning.Proofs.Pem
import RequestSigning.Proofs.Key.Forms
import RequestSigning.Proofs.Key.Private
import RequestSigning.Proofs.Key.PrivateFiles
import RequestSigning.Proofs.Http.Received
import RequestSigning.Proofs.Json.Tokens
import RequestSigning.Proofs.Json.Trees
import RequestSigning.Proofs.Json.Skipping
import RequestSigning.Proofs.Json.KnownMembers
import RequestSigning.Proofs.KnownClaims
import RequestSigning.Proofs.SignedNames
import RequestSigning.Proofs.SignAsync
import RequestSigning.Proofs.Curve.Field
import RequestSigning.Proofs.Curve.Primality
import RequestSigning.Proofs.Curve.Roots
import RequestSigning.Proofs.Curve.Group
import RequestSigning.Proofs.Curve.Order
import RequestSigning.Proofs.Ecdsa
import RequestSigning.Proofs.KeyPair
