/- # ClientOrderId — the deterministic client order id of one submission.

An id is the namespace, the run id, a ten-character tag of the symbol, the leg, the generation and
the journal's submit sequence, joined by dashes.  Nothing in it is cut to the venue's 36 characters:
an id that does not fit is REFUSED (`ValueError`), so the sequence number at its end always survives
and two ids with different sequence numbers are different ids, whatever the rest of them is. -/
import Mathlib.Algebra.Group.Nat.Defs
import Mathlib.Logic.Function.Basic
import CryptoPilot.Live.Errors

namespace CryptoPilot.Live

open List

/-- `hashlib.sha256(text.encode("utf-8")).digest()`: the 32 bytes of a text's digest. -/
abbrev Digest : Type := String → Fin 32 → Fin 256

def clientOrderNamespace : String := "mh"

def base32Alphabet : List Char := "ABCDEFGHIJKLMNOPQRSTUVWXYZ234567".toList

/-- The `k`-th base32 character of a digest: five bits, most significant first. -/
def base32Char (bytes : Fin 32 → Fin 256) (k : ℕ) : Char :=
  -- the first seven bytes hold the first ten characters
  let bits := (finRange 7).foldl (fun acc i => 256 * acc + (bytes (i.castLE (by decide))).val) 0
  base32Alphabet.getD (bits / 2 ^ (56 - 5 * (k + 1)) % 32) 'A'

/-- `symbol_tag`: the first ten base32 characters of the symbol's digest. -/
def symbolTag (sha256 : Digest) (symbol : String) : String :=
  String.ofList ((List.range 10).map (base32Char (sha256 symbol)))

/-- A character of `_CLIENT_ORDER_ID_PATTERN`. -/
def clientOrderIdChar (c : Char) : Bool :=
  ('a' ≤ c && c ≤ 'z') || ('A' ≤ c && c ≤ 'Z') || ('0' ≤ c && c ≤ '9') || c == '.' || c == '_' ||
    c == '-'

/-- `_CLIENT_ORDER_ID_PATTERN.fullmatch`. -/
def clientOrderIdPattern (candidate : String) : Bool :=
  1 ≤ candidate.toList.length && candidate.toList.length ≤ 36 &&
    candidate.toList.all clientOrderIdChar

/-- The candidate of `build_client_order_id`. -/
def clientOrderIdText (sha256 : Digest) (runId symbol : String) (legIndex generation submitSeq : ℕ) : String :=
  clientOrderNamespace ++ runId ++ "-" ++ symbolTag sha256 symbol ++ "-" ++ toString legIndex ++ "-"
    ++ toString generation ++ "-" ++ toString submitSeq

/-- `build_client_order_id`: raises when the candidate breaks the venue's constraint. -/
def buildClientOrderId (sha256 : Digest) (runId symbol : String)
    (legIndex generation submitSeq : ℕ) : Except Exc String :=
  let candidate := clientOrderIdText sha256 runId symbol legIndex generation submitSeq
  if clientOrderIdPattern candidate then .ok candidate else .error .valueError

theorem dash_notMem_toDigits (n : ℕ) : '-' ∉ Nat.toDigits 10 n := by
  intro h
  have hdigit := Nat.isDigit_of_mem_toDigits (by decide) (by decide) h
  exact absurd hdigit (by decide)

theorem suffix_after_dash_inj {xs ys us vs : List Char} (hu : '-' ∉ us) (hv : '-' ∉ vs)
    (h : xs ++ '-' :: us = ys ++ '-' :: vs) : us = vs := by
  rcases append_eq_append_iff.mp h with ⟨mid, hys, hus⟩ | ⟨mid, hxs, hvs⟩
  · cases mid with
    | nil => simpa using hus
    | cons c mid =>
      rw [cons_append, List.cons.injEq] at hus
      exact absurd (hus.2 ▸ mem_append_right mid mem_cons_self) hu
  · cases mid with
    | nil => simpa using hvs.symm
    | cons c mid =>
      rw [cons_append, List.cons.injEq] at hvs
      exact absurd (hvs.2 ▸ mem_append_right mid mem_cons_self) hv

variable {sha256 sha256' : Digest} {legIndex legIndex' generation generation' submitSeq submitSeq' : ℕ}
  {runId symbol orderId : String}

/-- **Equal ids carry equal sequence numbers**, whatever run, symbol, leg and generation they were
built for. -/
theorem clientOrderIdText_submitSeq_inj
    {runId runId' symbol symbol' : String} (h : clientOrderIdText sha256 runId symbol legIndex generation submitSeq
      = clientOrderIdText sha256' runId' symbol' legIndex' generation' submitSeq') :
    submitSeq = submitSeq' := by
  have htail : ∀ (pre : String) (n : ℕ),
      (pre ++ "-" ++ toString n).toList = pre.toList ++ '-' :: Nat.toDigits 10 n := by
    intro pre n
    rw [String.toList_append, String.toList_append, Nat.toString_eq_repr, Nat.toList_repr, append_assoc]
    rfl
  have hchars := (htail _ submitSeq).symm.trans ((congrArg String.toList h).trans (htail _ submitSeq'))
  have hdigits := suffix_after_dash_inj (dash_notMem_toDigits _) (dash_notMem_toDigits _) hchars
  have hvalue := congrArg (fun digits => Nat.ofDigitChars 10 digits 0) hdigits
  simpa only [Nat.ofDigitChars_ten_toDigits] using hvalue

variable {legIndex generation submitSeq : ℕ}

theorem buildClientOrderId_eq_ok {sha256 : Digest}
    (h : buildClientOrderId sha256 runId symbol legIndex generation submitSeq = .ok orderId) :
    orderId = clientOrderIdText sha256 runId symbol legIndex generation submitSeq := by
  unfold buildClientOrderId at h
  simp only at h
  split at h
  · exact (Except.ok.inj h).symm
  · cases h

theorem buildClientOrderId_submitSeq_inj
    {runId runId' symbol symbol' orderId : String}
    (h : buildClientOrderId sha256 runId symbol legIndex generation submitSeq = .ok orderId)
    (h' : buildClientOrderId sha256' runId' symbol' legIndex' generation' submitSeq' = .ok orderId) :
    submitSeq = submitSeq' :=
  clientOrderIdText_submitSeq_inj
    ((buildClientOrderId_eq_ok h).symm.trans (buildClientOrderId_eq_ok h'))

theorem buildClientOrderId_namespace {sha256 : Digest}
    (h : buildClientOrderId sha256 runId symbol legIndex generation submitSeq = .ok orderId) :
    clientOrderNamespace.toList <+: orderId.toList := by
  rw [buildClientOrderId_eq_ok h, clientOrderIdText]
  simp only [String.toList_append, append_assoc]; exact prefix_append _ _

end CryptoPilot.Live
