import Mathlib.Data.List.Nodup
import Mathlib.Data.List.Count

/-!
# Which buckets an order and its requests count against

`acme/budget.go` maps an account and what it is about to do to the buckets of `internal/limit` that
pay for it: `orderBuckets` for an order (those spent when it is created and those spent when it
succeeds), `requestBuckets` for one request, and `prepayBucket` for the requests an order pays for
in advance.

The rates of the buckets do not matter here, so a bucket is its key.  A `Key` is what the source
builds the key from, `Key.text` is the key, and no two of them share a text (`Key.text_injective`),
so that different buckets are different keys of the store.
-/

namespace Tunneld.Acme

/-- The certificate authorities. -/
inductive CA
  | letsEncrypt
  | gts
  | zeroSSL
  deriving DecidableEq

/-- What a bucket counts. -/
inductive Kind
  | leDomain
  | leOrders
  | leName
  | gtsOrders
  | gtsRequests
  | gtsCertPolls
  | zerosslOrders
  | zerosslRequests
  deriving DecidableEq

/-- What the keys of a kind begin with. -/
def Kind.label : Kind → String
  | .leDomain => "letsencrypt:domain:"
  | .leOrders => "letsencrypt:orders:"
  | .leName => "letsencrypt:name:"
  | .gtsOrders => "gts:orders:"
  | .gtsRequests => "gts:requests:"
  | .gtsCertPolls => "gts:cert:"
  | .zerosslOrders => "zerossl:orders:"
  | .zerosslRequests => "zerossl:requests:"

/-- The key of a bucket: what it counts, and for which account, name or domain. -/
structure Key where
  kind : Kind
  owner : String
  deriving DecidableEq

/-- The key as the store has it. -/
def Key.text (k : Key) : String := k.kind.label ++ k.owner

/-- No kind's keys begin with what those of another begin with. -/
theorem Kind.eq_of_isPrefix {k l : Kind} (h : k.label.toList <+: l.label.toList) : k = l := by
  revert h
  cases k <;> cases l <;> decide

/-- The kind of a bucket can be read off its key. -/
theorem Kind.eq_of_append {k l : Kind} {x y : String} (h : k.label ++ x = l.label ++ y) :
    k = l := by
  have hlist : k.label.toList ++ x.toList = l.label.toList ++ y.toList := by
    rw [← String.toList_append, h, String.toList_append]
  have hk : k.label.toList <+: l.label.toList ++ y.toList := ⟨_, hlist⟩
  rcases List.prefix_or_prefix_of_prefix hk (List.prefix_append _ _) with hp | hp
  · exact Kind.eq_of_isPrefix hp
  · exact (Kind.eq_of_isPrefix hp).symm

theorem Key.text_injective : Function.Injective Key.text := by
  rintro ⟨k, x⟩ ⟨l, y⟩ h
  obtain rfl : k = l := Kind.eq_of_append h
  have hxy : x = y := (String.append_right_inj k.label).1 h
  rw [hxy]

/-- What the tables read of an account. -/
structure Account where
  ca : CA
  id : String

/-- `gtsRequestsPerOrder`. -/
def gtsRequestsPerOrder : Nat := 9

/-- `zerosslRequestsPerOrder`. -/
def zerosslRequestsPerOrder : Nat := 9

/-- The bucket an order prepays its requests from, and how many.  The source's empty bucket is
`none`. -/
def prepayBucket (a : Account) : Option Key × Nat :=
  match a.ca with
  | .gts => (some ⟨.gtsRequests, a.id⟩, gtsRequestsPerOrder)
  | .zeroSSL => (some ⟨.zerosslRequests, a.id⟩, zerosslRequestsPerOrder)
  | .letsEncrypt => (none, 0)

/-- The name an order is for, and how it counts. -/
structure Subject where
  fqdn : String
  /-- `registeredDomain(fqdn)`, which the public suffix list decides. -/
  registeredDomain : String
  /-- The order renews a Let's Encrypt certificate. -/
  leRenewal : Bool

/-- The buckets spent when an order is created. -/
def onCreate (a : Account) (n : Subject) : List Key :=
  match a.ca with
  | .letsEncrypt => if n.leRenewal then [] else [⟨.leOrders, a.id⟩]
  | .gts => [⟨.gtsOrders, a.id⟩]
  | .zeroSSL => [⟨.zerosslOrders, a.id⟩]

/-- The buckets spent when an order succeeds. -/
def onSuccess (a : Account) (n : Subject) : List Key :=
  match a.ca with
  | .letsEncrypt =>
    if n.leRenewal then [⟨.leName, n.fqdn⟩]
    else [⟨.leName, n.fqdn⟩, ⟨.leDomain, n.registeredDomain⟩]
  | .gts | .zeroSSL => []

/-- `orderBuckets`, one after the other: what an order reserves. -/
def orderBuckets (a : Account) (n : Subject) : List Key := onCreate a n ++ onSuccess a n

/-- An order reserves no bucket twice. -/
theorem nodup_orderBuckets (a : Account) (n : Subject) : (orderBuckets a n).Nodup := by
  unfold orderBuckets onCreate onSuccess
  cases a.ca <;> cases n.leRenewal <;> simp

/-- The buckets a request counts against.  `cert` says whether its path contains `/cert/`. -/
def requestBuckets (a : Account) (cert : Bool) : List Key :=
  match a.ca with
  | .gts => if cert then [⟨.gtsRequests, a.id⟩, ⟨.gtsCertPolls, a.id⟩] else [⟨.gtsRequests, a.id⟩]
  | .zeroSSL => [⟨.zerosslRequests, a.id⟩]
  | .letsEncrypt => []

/-- A request counts once against the bucket orders prepay from. -/
theorem count_requestBuckets {a : Account} {k : Key} (hk : (prepayBucket a).1 = some k)
    (cert : Bool) : (requestBuckets a cert).count k = 1 := by
  unfold prepayBucket at hk
  unfold requestBuckets
  cases hca : a.ca <;> simp only [hca] at hk ⊢
  · cases hk
  · cases hk
    cases cert <;> simp
  · cases hk
    simp

end Tunneld.Acme
