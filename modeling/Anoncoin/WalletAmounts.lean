import Anoncoin.Standard
set_option autoImplicit false

/-!
The balances of a wallet transaction with their caches: CWalletTx::GetDebit to GetChange,
CWalletTx::MarkDirty and CWallet::MarkDirty.  The chain and the memory pool enter through the
depth that GetDepthInMainChain gives to each transaction of the wallet.
-/

namespace Anoncoin

inductive WalletError where
  | runtimeError (text : String)
  | noReturn
  deriving DecidableEq, Repr

/-- An amount, or the exception thrown instead. -/
abbrev Amount := Except WalletError Int

/-- The nine amounts that a wallet transaction caches. -/
inductive AmountField where
  | debit
  | credit
  | immatureCredit
  | availableCredit
  | watchDebit
  | watchCredit
  | immatureWatchCredit
  | availableWatchCredit
  | change
  deriving DecidableEq, Repr

/-- The flags `f…Cached` and the values `n…Cached`. -/
structure CWalletTx where
  tx : CTransaction
  fCached : AmountField → Bool
  nCached : AmountField → Int

namespace CWalletTx

def init (tx : CTransaction) : CWalletTx := ⟨tx,fun _ => false,fun _ => 0⟩

def clear (wtx : CWalletTx) (field : AmountField) : CWalletTx :=
  { wtx with fCached := Function.update wtx.fCached field false }

def markDirty (wtx : CWalletTx) : CWalletTx :=
  [AmountField.credit,.availableCredit,.watchDebit,.watchCredit,.availableWatchCredit,
    .immatureWatchCredit,.debit,.change].foldl clear wtx

/-- The cached value if it is there and may be used, else the computed one, which is kept. -/
def read (wtx : CWalletTx) (field : AmountField) (fUseCache : Bool) (computed : Amount) :
    Amount × CWalletTx :=
  if fUseCache && wtx.fCached field then (.ok (wtx.nCached field),wtx)
  else match computed with
    | .ok n => (.ok n,{ wtx with
        fCached := Function.update wtx.fCached field true
        nCached := Function.update wtx.nCached field n })
    | .error e => (.error e,wtx)

def readIf (wtx : CWalletTx) (asked : Bool) (field : AmountField) (computed : Amount) :
    Amount × CWalletTx :=
  if asked then wtx.read field true computed else (.ok 0,wtx)

/-- The parts of GetDebit and GetCredit that the filter asks for. -/
def readFiltered (wtx : CWalletTx) (spendable watchOnly : AmountField) (filter : UInt8)
    (computed : AmountField → Amount) : Amount × CWalletTx :=
  match wtx.readIf (decide (filter &&& ISMINE_SPENDABLE ≠ 0)) spendable (computed spendable) with
  | (.error e,wtx) => (.error e,wtx)
  | (.ok n,wtx) =>
    match wtx.readIf (decide (filter &&& ISMINE_WATCH_ONLY ≠ 0)) watchOnly (computed watchOnly) with
    | (.error e,wtx) => (.error e,wtx)
    | (.ok m,wtx) => (.ok (n+m),wtx)

end CWalletTx

structure CWallet where
  keystore : CWalletKeys
  mapWallet : Uint256 → Option CWalletTx
  mapTxSpends : List (COutPoint × Uint256)
  mapAddressBook : List CTxDestination

/-- The loops that add amounts up and check each sum. -/
def addUp (text : String) (nTotal : Int) : List Amount → Amount
  | [] => .ok nTotal
  | amount :: rest => do
    let n ← amount
    if moneyRange (nTotal+n) then addUp text (nTotal+n) rest else .error (.runtimeError text)

section
variable (getID : CPubKey → CKeyID) (fDataCarrier : Bool) (getHash : CTransaction → Uint256)

namespace CWalletKeys
variable (s : CWalletKeys)

def mineOf (txout : CTxOut) : Except WalletError IsMineType :=
  match s.isMine getID fDataCarrier txout.scriptPubKey with
  | none => .error .noReturn
  | some mine => .ok mine

/-- `IsMine(txout) & filter`, with the value where it is not zero. -/
def valueIfMine (txout : CTxOut) (filter : UInt8) : Amount := do
  let mine ← s.mineOf getID fDataCarrier txout
  pure (if mine.bits &&& filter ≠ 0 then txout.nValue else 0)

def getCreditOut (txout : CTxOut) (filter : UInt8) : Amount :=
  if !moneyRange txout.nValue then .error (.runtimeError "CWallet::GetCredit() : value out of range")
  else s.valueIfMine getID fDataCarrier txout filter

def getCredit (tx : CTransaction) (filter : UInt8) : Amount :=
  addUp "CWallet::GetCredit() : value out of range" 0
    (tx.vout.map fun txout => s.getCreditOut getID fDataCarrier txout filter)

end CWalletKeys

namespace CWallet
variable (w : CWallet)

def getDebitIn (txin : CTxIn) (filter : UInt8) : Amount :=
  match w.mapWallet txin.prevout.hash with
  | none => .ok 0
  | some prev =>
    match prev.tx.vout[txin.prevout.n]? with
    | none => .ok 0
    | some txout => w.keystore.valueIfMine getID fDataCarrier txout filter

def getDebit (tx : CTransaction) (filter : UInt8) : Amount :=
  addUp "CWallet::GetDebit() : value out of range" 0
    (tx.vin.map fun txin => w.getDebitIn getID fDataCarrier txin filter)

def isChange (txout : CTxOut) : Except WalletError Bool := do
  let mine ← w.keystore.mineOf getID fDataCarrier txout
  if mine ≠ .no then
    match extractDestination getID fDataCarrier txout.scriptPubKey with
    | none => pure true
    | some address => pure (!w.mapAddressBook.contains address)
  else pure false

def getChangeOut (txout : CTxOut) : Amount :=
  if !moneyRange txout.nValue then .error (.runtimeError "CWallet::GetChange() : value out of range")
  else do
    let change ← w.isChange getID fDataCarrier txout
    pure (if change then txout.nValue else 0)

def getChange (tx : CTransaction) : Amount :=
  addUp "CWallet::GetChange() : value out of range" 0
    (tx.vout.map fun txout => w.getChangeOut getID fDataCarrier txout)

def isSpent (depth : Uint256 → Int) (hash : Uint256) (n : Nat) : Bool :=
  w.mapTxSpends.any fun spend =>
    decide (spend.1 = ⟨hash,n⟩) && (w.mapWallet spend.2).isSome &&
      decide (0 ≤ depth spend.2)

/-- The loops of GetAvailableCredit and GetAvailableWatchOnlyCredit, whose texts agree. -/
def availableCredit (depth : Uint256 → Int) (tx : CTransaction) (filter : UInt8) : Amount :=
  addUp "CWalletTx::GetAvailableCredit() : value out of range" 0
    ((tx.vout.zipIdx.filter fun out => !w.isSpent depth (getHash tx) out.2).map fun out =>
      w.keystore.getCreditOut getID fDataCarrier out.1 filter)

/-- What each cache is filled with. -/
def computed (depth : Uint256 → Int) (tx : CTransaction) : AmountField → Amount
  | .debit => w.getDebit getID fDataCarrier tx ISMINE_SPENDABLE
  | .watchDebit => w.getDebit getID fDataCarrier tx ISMINE_WATCH_ONLY
  | .credit => w.keystore.getCredit getID fDataCarrier tx ISMINE_SPENDABLE
  | .watchCredit => w.keystore.getCredit getID fDataCarrier tx ISMINE_WATCH_ONLY
  | .immatureCredit => w.keystore.getCredit getID fDataCarrier tx ISMINE_SPENDABLE
  | .immatureWatchCredit => w.keystore.getCredit getID fDataCarrier tx ISMINE_WATCH_ONLY
  | .availableCredit => w.availableCredit getID fDataCarrier getHash depth tx ISMINE_SPENDABLE
  | .availableWatchCredit => w.availableCredit getID fDataCarrier getHash depth tx ISMINE_WATCH_ONLY
  | .change => w.getChange getID fDataCarrier tx

end CWallet

def getBlocksToMaturity (depth : Uint256 → Int) (tx : CTransaction) : Int :=
  if !tx.isCoinBase then 0 else max 0 ((COINBASE_MATURITY : Int)+1-depth (getHash tx))

def isInMainChain (depth : Uint256 → Int) (tx : CTransaction) : Bool := decide (0 < depth (getHash tx))

/-- The coinbase must wait before its outputs count. -/
def maturing (depth : Uint256 → Int) (tx : CTransaction) : Bool :=
  tx.isCoinBase && decide (0 < getBlocksToMaturity getHash depth tx)

/-- The balance queries, with the cache used where there is a choice. -/
inductive BalanceQuery where
  | getDebit (filter : UInt8)
  | getCredit (filter : UInt8)
  | getImmatureCredit
  | getAvailableCredit
  | getImmatureWatchOnlyCredit
  | getAvailableWatchOnlyCredit
  | getChange
  deriving DecidableEq, Repr

namespace CWalletTx
variable (wtx : CWalletTx) (w : CWallet) (depth : Uint256 → Int)

def getDebit (filter : UInt8) : Amount × CWalletTx :=
  if wtx.tx.vin.isEmpty then (.ok 0,wtx)
  else wtx.readFiltered .debit .watchDebit filter
    (w.computed getID fDataCarrier getHash depth wtx.tx)

def getCredit (filter : UInt8) : Amount × CWalletTx :=
  if maturing getHash depth wtx.tx then (.ok 0,wtx)
  else wtx.readFiltered .credit .watchCredit filter
    (w.computed getID fDataCarrier getHash depth wtx.tx)

/-- GetImmatureCredit and GetImmatureWatchOnlyCredit. -/
def getImmature (field : AmountField) (fUseCache : Bool) : Amount × CWalletTx :=
  if maturing getHash depth wtx.tx && isInMainChain getHash depth wtx.tx then
    wtx.read field fUseCache (w.computed getID fDataCarrier getHash depth wtx.tx field)
  else (.ok 0,wtx)

/-- GetAvailableCredit and GetAvailableWatchOnlyCredit. -/
def getAvailable (field : AmountField) (fUseCache : Bool) : Amount × CWalletTx :=
  if maturing getHash depth wtx.tx then (.ok 0,wtx)
  else wtx.read field fUseCache (w.computed getID fDataCarrier getHash depth wtx.tx field)

def getChange : Amount × CWalletTx :=
  wtx.read .change true (w.computed getID fDataCarrier getHash depth wtx.tx .change)

def query : BalanceQuery → Amount × CWalletTx
  | .getDebit filter => wtx.getDebit getID fDataCarrier getHash w depth filter
  | .getCredit filter => wtx.getCredit getID fDataCarrier getHash w depth filter
  | .getImmatureCredit => wtx.getImmature getID fDataCarrier getHash w depth .immatureCredit true
  | .getAvailableCredit => wtx.getAvailable getID fDataCarrier getHash w depth .availableCredit true
  | .getImmatureWatchOnlyCredit =>
    wtx.getImmature getID fDataCarrier getHash w depth .immatureWatchCredit true
  | .getAvailableWatchOnlyCredit =>
    wtx.getAvailable getID fDataCarrier getHash w depth .availableWatchCredit true
  | .getChange => wtx.getChange getID fDataCarrier getHash w depth

/-- Whether the query computes the immature credit of a coinbase that is immature. -/
def asksImmature (q : BalanceQuery) : Bool :=
  decide (q = .getImmatureCredit) && maturing getHash depth wtx.tx &&
    isInMainChain getHash depth wtx.tx &&
    (w.keystore.getCredit getID fDataCarrier wtx.tx ISMINE_SPENDABLE).isOk

end CWalletTx

namespace CWallet
variable (w : CWallet) (depth : Uint256 → Int)

def markDirty : CWallet := { w with mapWallet := fun hash => (w.mapWallet hash).map .markDirty }

/-- The answer to a query and the wallet with the caches it leaves. -/
def ask (hash : Uint256) (q : BalanceQuery) : Option Amount × CWallet :=
  match w.mapWallet hash with
  | none => (none,w)
  | some wtx =>
    let r := wtx.query getID fDataCarrier getHash w depth q
    (some r.1,{ w with mapWallet := Function.update w.mapWallet hash (some r.2) })

/-- The same query of a copy of the transaction that has nothing cached. -/
def askUncached (hash : Uint256) (q : BalanceQuery) : Option Amount :=
  (w.mapWallet hash).map fun wtx =>
    ((CWalletTx.init wtx.tx).query getID fDataCarrier getHash w depth q).1

def asks (asked : List (Uint256 × BalanceQuery)) : CWallet :=
  asked.foldl (fun w a => (w.ask getID fDataCarrier getHash depth a.1 a.2).2) w

end CWallet

/-- What happens to a wallet: new transactions, queries under the chain and pool of their time,
and changes of what the amounts depend on. -/
inductive WalletEvent where
  | addTx (tx : CTransaction)
  | ask (depth : Uint256 → Int) (hash : Uint256) (q : BalanceQuery)
  | setKeys (keystore : CWalletKeys)
  | setSpends (mapTxSpends : List (COutPoint × Uint256))
  | setAddressBook (mapAddressBook : List CTxDestination)
  | markDirty

namespace CWallet

def create (keystore : CWalletKeys) : CWallet := ⟨keystore,fun _ => none,[],[]⟩

def step (w : CWallet) : WalletEvent → CWallet
  | .addTx tx =>
    if (w.mapWallet (getHash tx)).isSome then w
    else { w with mapWallet := Function.update w.mapWallet (getHash tx) (some (.init tx)) }
  | .ask depth hash q => (w.ask getID fDataCarrier getHash depth hash q).2
  | .setKeys keystore => { w with keystore := keystore }
  | .setSpends mapTxSpends => { w with mapTxSpends := mapTxSpends }
  | .setAddressBook mapAddressBook => { w with mapAddressBook := mapAddressBook }
  | .markDirty => w.markDirty

def run (w : CWallet) (events : List WalletEvent) : CWallet :=
  events.foldl (step getID fDataCarrier getHash) w

/-- A query of the immature credit of the transaction while it is immature. -/
def fills (w : CWallet) (hash : Uint256) : WalletEvent → Bool
  | .ask depth asked q =>
    decide (asked = hash) &&
      match w.mapWallet hash with
      | none => false
      | some wtx => wtx.asksImmature getID fDataCarrier getHash w depth q
  | _ => false

/-- The keys at the first query of the immature credit. -/
def firstFill (hash : Uint256) (w : CWallet) : List WalletEvent → Option CWalletKeys
  | [] => none
  | e :: events =>
    if w.fills getID fDataCarrier getHash hash e then some w.keystore
    else firstFill hash (w.step getID fDataCarrier getHash e) events

end CWallet

/-! Queries leave what the caches stand for as it is -/

namespace CWalletTx
variable {wtx : CWalletTx} {computed : AmountField → Amount}

/-- What reading a field gives. -/
def view (wtx : CWalletTx) (computed : AmountField → Amount) (field : AmountField) : Amount :=
  if wtx.fCached field then .ok (wtx.nCached field) else computed field

@[simp] theorem view_init (tx : CTransaction) : (init tx).view computed = computed := rfl

/-- A query that reads the given fields: the transaction stays, what each field stands for stays,
and the other fields stay as they are. -/
structure Reads (computed : AmountField → Amount) (fields : List AmountField) (wtx wtx' : CWalletTx) :
    Prop where
  tx : wtx'.tx = wtx.tx
  view : wtx'.view computed = wtx.view computed
  others : ∀ field, field ∉ fields →
    wtx'.fCached field = wtx.fCached field ∧ wtx'.nCached field = wtx.nCached field

theorem Reads.refl (fields : List AmountField) : Reads computed fields wtx wtx :=
  ⟨rfl,rfl,fun _ _ => ⟨rfl,rfl⟩⟩

theorem Reads.trans {fields : List AmountField} {wtx₁ wtx₂ : CWalletTx}
    (h₁ : Reads computed fields wtx wtx₁) (h₂ : Reads computed fields wtx₁ wtx₂) :
    Reads computed fields wtx wtx₂ := by
  refine ⟨h₂.tx.trans h₁.tx,h₂.view.trans h₁.view,?_⟩
  intro field hf
  obtain ⟨ha,hb⟩ := h₁.others field hf
  obtain ⟨hc,hd⟩ := h₂.others field hf
  exact ⟨hc.trans ha,hd.trans hb⟩

theorem Reads.mono {fields more : List AmountField} {wtx' : CWalletTx}
    (h : Reads computed fields wtx wtx') (hsub : fields ⊆ more) : Reads computed more wtx wtx' :=
  ⟨h.tx,h.view,fun field hf => h.others field (fun hm => hf (hsub hm))⟩

theorem read_fst (field : AmountField) :
    (wtx.read field true (computed field)).1 = wtx.view computed field := by
  unfold read view
  cases wtx.fCached field with
  | true => rfl
  | false => cases computed field <;> rfl

theorem read_reads (field : AmountField) :
    Reads computed [field] wtx (wtx.read field true (computed field)).2 := by
  unfold read
  cases hc : wtx.fCached field with
  | true => exact .refl _
  | false =>
    cases hn : computed field with
    | error e => exact .refl _
    | ok n =>
      refine ⟨rfl,?_,?_⟩
      · funext other
        by_cases ho : other = field
        · subst ho
          simp [view,hc,hn]
        · simp [view,ho]
      · intro other ho
        have hne : other ≠ field := by simpa using ho
        simp [hne]

/-- The sum of the parts that a filter asks for. -/
def filtered (spendable watchOnly : AmountField) (filter : UInt8)
    (value : AmountField → Amount) : Amount :=
  (if filter &&& ISMINE_SPENDABLE ≠ 0 then value spendable else .ok 0).bind fun n =>
    (if filter &&& ISMINE_WATCH_ONLY ≠ 0 then value watchOnly else .ok 0).bind fun m =>
      .ok (n+m)

theorem readIf_spec (wtx : CWalletTx) (computed : AmountField → Amount) {p : Prop} [Decidable p]
    (field : AmountField) {fields : List AmountField} (hf : field ∈ fields) :
    (wtx.readIf (decide p) field (computed field)).1 =
      (if p then wtx.view computed field else .ok 0) ∧
    Reads computed fields wtx (wtx.readIf (decide p) field (computed field)).2 := by
  by_cases hp : p
  · simp only [readIf,hp,decide_true,if_true]
    exact ⟨read_fst field,(read_reads field).mono (by simpa using hf)⟩
  · simp only [readIf,hp,decide_false,if_false,Bool.false_eq_true]
    exact ⟨trivial,.refl _⟩

theorem readFiltered_spec (spendable watchOnly : AmountField) (filter : UInt8) :
    (wtx.readFiltered spendable watchOnly filter computed).1 =
      filtered spendable watchOnly filter (wtx.view computed) ∧
    Reads computed [spendable,watchOnly] wtx
      (wtx.readFiltered spendable watchOnly filter computed).2 := by
  unfold readFiltered filtered
  obtain ⟨hv₁,hr₁⟩ := wtx.readIf_spec computed (p := filter &&& ISMINE_SPENDABLE ≠ 0) spendable
    (List.mem_cons_self (l := [watchOnly]))
  generalize wtx.readIf (decide (filter &&& ISMINE_SPENDABLE ≠ 0)) spendable
    (computed spendable) = r₁ at hv₁ hr₁
  obtain ⟨a₁,wtx₁⟩ := r₁
  rw [← hv₁]
  cases a₁ with
  | error e => exact ⟨rfl,hr₁⟩
  | ok n =>
    obtain ⟨hv₂,hr₂⟩ := wtx₁.readIf_spec computed (p := filter &&& ISMINE_WATCH_ONLY ≠ 0) watchOnly
      (List.mem_cons_of_mem spendable (List.mem_singleton_self watchOnly))
    dsimp only
    generalize wtx₁.readIf (decide (filter &&& ISMINE_WATCH_ONLY ≠ 0)) watchOnly
      (computed watchOnly) = r₂ at hv₂ hr₂
    obtain ⟨a₂,wtx₂⟩ := r₂
    rw [hr₁.view] at hv₂
    rw [← hv₂]
    cases a₂ with
    | error e => exact ⟨rfl,hr₁.trans hr₂⟩
    | ok m => exact ⟨rfl,hr₁.trans hr₂⟩

/-- What a query answers, given what each field stands for. -/
def answer (getHash : CTransaction → Uint256) (depth : Uint256 → Int) (tx : CTransaction)
    (value : AmountField → Amount) : BalanceQuery → Amount
  | .getDebit filter => if tx.vin.isEmpty then .ok 0 else filtered .debit .watchDebit filter value
  | .getCredit filter =>
    if maturing getHash depth tx then .ok 0 else filtered .credit .watchCredit filter value
  | .getImmatureCredit =>
    if maturing getHash depth tx && isInMainChain getHash depth tx then value .immatureCredit
    else .ok 0
  | .getAvailableCredit => if maturing getHash depth tx then .ok 0 else value .availableCredit
  | .getImmatureWatchOnlyCredit =>
    if maturing getHash depth tx && isInMainChain getHash depth tx then value .immatureWatchCredit
    else .ok 0
  | .getAvailableWatchOnlyCredit =>
    if maturing getHash depth tx then .ok 0 else value .availableWatchCredit
  | .getChange => value .change

/-- The fields that a query reads. -/
def fieldsOf : BalanceQuery → List AmountField
  | .getDebit _ => [.debit,.watchDebit]
  | .getCredit _ => [.credit,.watchCredit]
  | .getImmatureCredit => [.immatureCredit]
  | .getAvailableCredit => [.availableCredit]
  | .getImmatureWatchOnlyCredit => [.immatureWatchCredit]
  | .getAvailableWatchOnlyCredit => [.availableWatchCredit]
  | .getChange => [.change]

theorem query_spec (wtx : CWalletTx) (w : CWallet) (depth : Uint256 → Int) (q : BalanceQuery) :
    let computed := w.computed getID fDataCarrier getHash depth wtx.tx
    (wtx.query getID fDataCarrier getHash w depth q).1 =
      answer getHash depth wtx.tx (wtx.view computed) q ∧
    Reads computed (fieldsOf q) wtx (wtx.query getID fDataCarrier getHash w depth q).2 := by
  cases q with
  | getDebit filter =>
    simp only [query,CWalletTx.getDebit,answer,fieldsOf]
    split
    · exact ⟨rfl,.refl _⟩
    · exact readFiltered_spec _ _ _
  | getCredit filter =>
    simp only [query,CWalletTx.getCredit,answer,fieldsOf]
    split
    · exact ⟨rfl,.refl _⟩
    · exact readFiltered_spec _ _ _
  | getImmatureCredit =>
    simp only [query,getImmature,answer,fieldsOf]
    split
    · exact ⟨read_fst _,read_reads _⟩
    · exact ⟨rfl,.refl _⟩
  | getAvailableCredit =>
    simp only [query,getAvailable,answer,fieldsOf]
    split
    · exact ⟨rfl,.refl _⟩
    · exact ⟨read_fst _,read_reads _⟩
  | getImmatureWatchOnlyCredit =>
    simp only [query,getImmature,answer,fieldsOf]
    split
    · exact ⟨read_fst _,read_reads _⟩
    · exact ⟨rfl,.refl _⟩
  | getAvailableWatchOnlyCredit =>
    simp only [query,getAvailable,answer,fieldsOf]
    split
    · exact ⟨rfl,.refl _⟩
    · exact ⟨read_fst _,read_reads _⟩
  | getChange =>
    simp only [query,CWalletTx.getChange,answer,fieldsOf]
    exact ⟨read_fst _,read_reads _⟩

theorem markDirty_tx (wtx : CWalletTx) : wtx.markDirty.tx = wtx.tx := rfl

theorem markDirty_fCached (wtx : CWalletTx) (field : AmountField) :
    wtx.markDirty.fCached field =
      (decide (field = .immatureCredit) && wtx.fCached .immatureCredit) := by
  cases field <;> simp [markDirty,clear,Function.update]

theorem markDirty_nCached (wtx : CWalletTx) : wtx.markDirty.nCached = wtx.nCached := rfl

end CWalletTx

namespace CWallet

/-- Two wallets that differ in their caches only. -/
structure SameData (w w' : CWallet) : Prop where
  keystore : w'.keystore = w.keystore
  spends : w'.mapTxSpends = w.mapTxSpends
  book : w'.mapAddressBook = w.mapAddressBook
  txs : ∀ hash, (w'.mapWallet hash).map CWalletTx.tx = (w.mapWallet hash).map CWalletTx.tx

theorem SameData.getDebitIn {w w' : CWallet} (h : SameData w w') (txin : CTxIn) (filter : UInt8) :
    w'.getDebitIn getID fDataCarrier txin filter = w.getDebitIn getID fDataCarrier txin filter := by
  have htx := h.txs txin.prevout.hash
  unfold CWallet.getDebitIn
  rw [h.keystore]
  cases hw : w.mapWallet txin.prevout.hash with
  | none =>
    rw [hw,Option.map_none,Option.map_eq_none_iff] at htx
    rw [htx]
  | some prev =>
    rw [hw,Option.map_some,Option.map_eq_some_iff] at htx
    obtain ⟨prev',hw',hprev⟩ := htx
    rw [hw']
    simp only [hprev]

theorem SameData.isSpent {w w' : CWallet} (h : SameData w w') (depth : Uint256 → Int) :
    w'.isSpent depth = w.isSpent depth := by
  have hsome : ∀ hash, (w'.mapWallet hash).isSome = (w.mapWallet hash).isSome := by
    intro hash
    have htx := congrArg Option.isSome (h.txs hash)
    simpa using htx
  funext hash n
  simp only [CWallet.isSpent,h.spends,hsome]

theorem SameData.computed {w w' : CWallet} (h : SameData w w') (depth : Uint256 → Int) :
    w'.computed getID fDataCarrier getHash depth = w.computed getID fDataCarrier getHash depth := by
  funext tx field
  cases field <;>
    simp only [CWallet.computed,CWallet.getDebit,h.getDebitIn,CWallet.availableCredit,h.isSpent,
      CWallet.getChange,CWallet.getChangeOut,CWallet.isChange,h.keystore,h.book]

/-- What queries under one chain and pool leave behind. -/
structure Asked (depth : Uint256 → Int) (w w' : CWallet) : Prop extends SameData w w' where
  view : ∀ hash wtx', w'.mapWallet hash = some wtx' → ∃ wtx, w.mapWallet hash = some wtx ∧
    wtx'.tx = wtx.tx ∧
    wtx'.view (w.computed getID fDataCarrier getHash depth wtx.tx) =
      wtx.view (w.computed getID fDataCarrier getHash depth wtx.tx)

theorem Asked.refl (depth : Uint256 → Int) (w : CWallet) :
    Asked getID fDataCarrier getHash depth w w :=
  ⟨⟨rfl,rfl,rfl,fun _ => rfl⟩,fun _ wtx h => ⟨wtx,h,rfl,rfl⟩⟩

theorem ask_asked (w : CWallet) (depth : Uint256 → Int) (hash : Uint256) (q : BalanceQuery) :
    Asked getID fDataCarrier getHash depth w (w.ask getID fDataCarrier getHash depth hash q).2 := by
  unfold ask
  cases hw : w.mapWallet hash with
  | none => exact .refl _ _ _ _ _
  | some wtx =>
    have hq := (wtx.query_spec getID fDataCarrier getHash w depth q).2
    refine ⟨⟨rfl,rfl,rfl,?_⟩,?_⟩
    · intro other
      by_cases ho : other = hash
      · subst ho
        simp [hw,hq.tx]
      · simp [ho]
    · intro other wtx' hw'
      by_cases ho : other = hash
      · subst ho
        have he : (wtx.query getID fDataCarrier getHash w depth q).2 = wtx' := by simpa using hw'
        subst he
        exact ⟨wtx,hw,hq.tx,hq.view⟩
      · have he : w.mapWallet other = some wtx' := by simpa [ho] using hw'
        exact ⟨wtx',he,rfl,rfl⟩

theorem Asked.trans {depth : Uint256 → Int} {w w₁ w₂ : CWallet}
    (h₁ : Asked getID fDataCarrier getHash depth w w₁)
    (h₂ : Asked getID fDataCarrier getHash depth w₁ w₂) :
    Asked getID fDataCarrier getHash depth w w₂ := by
  refine ⟨⟨h₂.keystore.trans h₁.keystore,h₂.spends.trans h₁.spends,h₂.book.trans h₁.book,
    fun hash => (h₂.txs hash).trans (h₁.txs hash)⟩,?_⟩
  intro hash wtx₂ hw₂
  obtain ⟨wtx₁,hw₁,ht₂,hv₂⟩ := h₂.view hash wtx₂ hw₂
  obtain ⟨wtx,hw,ht₁,hv₁⟩ := h₁.view hash wtx₁ hw₁
  refine ⟨wtx,hw,ht₂.trans ht₁,?_⟩
  rw [h₁.toSameData.computed,ht₁] at hv₂
  exact hv₂.trans hv₁

theorem asks_asked (depth : Uint256 → Int) (asked : List (Uint256 × BalanceQuery)) (w : CWallet) :
    Asked getID fDataCarrier getHash depth w (w.asks getID fDataCarrier getHash depth asked) := by
  induction asked generalizing w with
  | nil => exact .refl _ _ _ _ _
  | cons a asked ih =>
    exact (w.ask_asked getID fDataCarrier getHash depth a.1 a.2).trans _ _ _ (ih _)

end CWallet

/-! The history of the cache that MarkDirty leaves alone -/

namespace CWalletTx

/-- The flag and the value of the cached immature credit. -/
def immatureCell (wtx : CWalletTx) : Bool × Int :=
  (wtx.fCached .immatureCredit,wtx.nCached .immatureCredit)

@[simp] theorem immatureCell_markDirty (wtx : CWalletTx) :
    wtx.markDirty.immatureCell = wtx.immatureCell := by
  simp [immatureCell,markDirty_fCached,markDirty_nCached]

theorem query_immatureCell (wtx : CWalletTx) (w : CWallet) (depth : Uint256 → Int)
    (q : BalanceQuery) :
    (wtx.query getID fDataCarrier getHash w depth q).2.immatureCell =
      if !wtx.fCached .immatureCredit && wtx.asksImmature getID fDataCarrier getHash w depth q then
        match w.keystore.getCredit getID fDataCarrier wtx.tx ISMINE_SPENDABLE with
        | .ok n => (true,n)
        | .error _ => wtx.immatureCell
      else wtx.immatureCell := by
  by_cases hq : q = .getImmatureCredit
  · subst hq
    simp only [query,getImmature,asksImmature,decide_true,Bool.true_and]
    cases hm : (maturing getHash depth wtx.tx && isInMainChain getHash depth wtx.tx) with
    | false => simp
    | true =>
      cases hc : wtx.fCached .immatureCredit with
      | true => simp [read,hc]
      | false =>
        cases hn : w.keystore.getCredit getID fDataCarrier wtx.tx ISMINE_SPENDABLE with
        | error e => simp [read,hc,CWallet.computed,hn,Except.isOk,Except.toBool]
        | ok n => simp [read,hc,CWallet.computed,hn,Except.isOk,Except.toBool,immatureCell]
  · have hnot : AmountField.immatureCredit ∉ fieldsOf q := by
      cases q <;> simp_all [fieldsOf]
    obtain ⟨hf,hn⟩ := (wtx.query_spec getID fDataCarrier getHash w depth q).2.others _ hnot
    simp [immatureCell,asksImmature,hq,hf,hn]

end CWalletTx

namespace CWallet
variable (hash : Uint256)

/-- What an event does to the cached immature credit. -/
theorem step_immatureCell (w : CWallet) (e : WalletEvent) {wtx' : CWalletTx}
    (h : (w.step getID fDataCarrier getHash e).mapWallet hash = some wtx') :
    (w.mapWallet hash = none ∧ w.fills getID fDataCarrier getHash hash e = false ∧
      wtx'.fCached .immatureCredit = false) ∨
    ∃ wtx, w.mapWallet hash = some wtx ∧ wtx'.tx = wtx.tx ∧
      wtx'.immatureCell =
        if !wtx.fCached .immatureCredit && w.fills getID fDataCarrier getHash hash e then
          match w.keystore.getCredit getID fDataCarrier wtx.tx ISMINE_SPENDABLE with
          | .ok n => (true,n)
          | .error _ => wtx.immatureCell
        else wtx.immatureCell := by
  cases e with
  | addTx tx =>
    simp only [step] at h
    split at h
    · exact .inr ⟨wtx',h,rfl,by simp [fills]⟩
    · rename_i hnone
      by_cases ho : hash = getHash tx
      · subst ho
        have he : CWalletTx.init tx = wtx' := by simpa using h
        exact .inl ⟨by simpa using hnone,rfl,by simp [← he,CWalletTx.init]⟩
      · exact .inr ⟨wtx',by simpa [ho] using h,rfl,by simp [fills]⟩
  | ask depth asked q =>
    simp only [step,ask] at h
    cases hw : w.mapWallet asked with
    | none =>
      simp only [hw] at h
      refine .inr ⟨wtx',h,rfl,?_⟩
      by_cases ho : asked = hash
      · subst ho
        simp [hw] at h
      · simp [fills,ho]
    | some wtx =>
      simp only [hw] at h
      by_cases ho : hash = asked
      · subst ho
        have he : (wtx.query getID fDataCarrier getHash w depth q).2 = wtx' := by simpa using h
        subst he
        refine .inr ⟨wtx,hw,(wtx.query_spec getID fDataCarrier getHash w depth q).2.tx,?_⟩
        rw [CWalletTx.query_immatureCell]
        simp [fills,hw]
      · have hne : asked ≠ hash := fun he => ho he.symm
        exact .inr ⟨wtx',by simpa [ho] using h,rfl,by simp [fills,hne]⟩
  | setKeys keystore => exact .inr ⟨wtx',h,rfl,by simp [fills]⟩
  | setSpends mapTxSpends => exact .inr ⟨wtx',h,rfl,by simp [fills]⟩
  | setAddressBook mapAddressBook => exact .inr ⟨wtx',h,rfl,by simp [fills]⟩
  | markDirty =>
    simp only [step,markDirty,Option.map_eq_some_iff] at h
    obtain ⟨wtx,hw,rfl⟩ := h
    exact .inr ⟨wtx,hw,rfl,by simp [fills]⟩

theorem step_isSome (w : CWallet) (e : WalletEvent) (h : (w.mapWallet hash).isSome = true) :
    ((w.step getID fDataCarrier getHash e).mapWallet hash).isSome = true := by
  cases e with
  | addTx tx =>
    simp only [step]
    split
    · exact h
    · by_cases ho : hash = getHash tx
      · simp [ho]
      · simpa [ho] using h
  | ask depth asked q =>
    have hd := (w.ask_asked getID fDataCarrier getHash depth asked q).txs hash
    have hs := congrArg Option.isSome hd
    simp only [Option.isSome_map] at hs
    exact hs.trans h
  | setKeys keystore => exact h
  | setSpends mapTxSpends => exact h
  | setAddressBook mapAddressBook => exact h
  | markDirty => simpa [step,markDirty] using h

/-- The cached immature credit is what the keys of its first query gave. -/
def FilledBy (w : CWallet) : Option CWalletKeys → Prop
  | none => ∀ wtx, w.mapWallet hash = some wtx → wtx.fCached .immatureCredit = false
  | some keys => (w.mapWallet hash).isSome = true ∧ ∀ wtx, w.mapWallet hash = some wtx →
      ∃ n, keys.getCredit getID fDataCarrier wtx.tx ISMINE_SPENDABLE = .ok n ∧
        wtx.immatureCell = (true,n)

theorem FilledBy.step_some {w : CWallet} {keys : CWalletKeys}
    (h : FilledBy getID fDataCarrier hash w (some keys)) (e : WalletEvent) :
    FilledBy getID fDataCarrier hash (w.step getID fDataCarrier getHash e) (some keys) := by
  refine ⟨w.step_isSome getID fDataCarrier getHash hash e h.1,?_⟩
  intro wtx' hw'
  obtain ⟨hnone,-,-⟩ | ⟨wtx,hw,htx,hcell⟩ := w.step_immatureCell getID fDataCarrier getHash hash e hw'
  · have hsome := h.1
    simp [hnone] at hsome
  · obtain ⟨n,hn,hc⟩ := h.2 wtx hw
    have hf : wtx.fCached .immatureCredit = true := congrArg Prod.fst hc
    refine ⟨n,by rw [htx]; exact hn,?_⟩
    rw [hcell,hf]
    exact hc

theorem credit_of_fills {w : CWallet} {e : WalletEvent}
    (h : w.fills getID fDataCarrier getHash hash e = true) :
    ∃ wtx n, w.mapWallet hash = some wtx ∧
      w.keystore.getCredit getID fDataCarrier wtx.tx ISMINE_SPENDABLE = .ok n := by
  cases e with
  | ask depth asked q =>
    simp only [fills,Bool.and_eq_true] at h
    obtain ⟨-,h⟩ := h
    cases hw : w.mapWallet hash with
    | none => simp [hw] at h
    | some wtx =>
      simp only [hw,CWalletTx.asksImmature,Bool.and_eq_true] at h
      cases hn : w.keystore.getCredit getID fDataCarrier wtx.tx ISMINE_SPENDABLE with
      | error e => simp [hn,Except.isOk,Except.toBool] at h
      | ok n => exact ⟨wtx,n,rfl,hn⟩
  | addTx tx => simp [fills] at h
  | setKeys keystore => simp [fills] at h
  | setSpends mapTxSpends => simp [fills] at h
  | setAddressBook mapAddressBook => simp [fills] at h
  | markDirty => simp [fills] at h

theorem FilledBy.step_none {w : CWallet} (h : FilledBy getID fDataCarrier hash w none)
    (e : WalletEvent) :
    FilledBy getID fDataCarrier hash (w.step getID fDataCarrier getHash e)
      (if w.fills getID fDataCarrier getHash hash e then some w.keystore else none) := by
  cases hfill : w.fills getID fDataCarrier getHash hash e with
  | false =>
    intro wtx' hw'
    obtain ⟨-,-,hf⟩ | ⟨wtx,hw,-,hcell⟩ := w.step_immatureCell getID fDataCarrier getHash hash e hw'
    · exact hf
    · rw [hfill] at hcell
      have hc : wtx'.immatureCell = wtx.immatureCell := by simpa using hcell
      exact (congrArg Prod.fst hc).trans (h wtx hw)
  | true =>
    obtain ⟨wtx,n,hw,hn⟩ := credit_of_fills getID fDataCarrier getHash hash hfill
    refine ⟨w.step_isSome getID fDataCarrier getHash hash e (by rw [hw]; rfl),?_⟩
    intro wtx' hw'
    obtain ⟨hnone,-,-⟩ | ⟨wtx₁,hw₁,htx,hcell⟩ :=
      w.step_immatureCell getID fDataCarrier getHash hash e hw'
    · simp [hw] at hnone
    · have he : wtx₁ = wtx := by simpa [hw] using hw₁.symm
      subst he
      refine ⟨n,by rw [htx]; exact hn,?_⟩
      rw [hcell,hfill,h wtx₁ hw,hn]
      rfl

theorem FilledBy.run_some {w : CWallet} {keys : CWalletKeys} (events : List WalletEvent)
    (h : FilledBy getID fDataCarrier hash w (some keys)) :
    FilledBy getID fDataCarrier hash (w.run getID fDataCarrier getHash events) (some keys) := by
  induction events generalizing w with
  | nil => exact h
  | cons e events ih => exact ih (h.step_some getID fDataCarrier getHash hash e)

theorem filledBy_run {w : CWallet} (events : List WalletEvent)
    (h : FilledBy getID fDataCarrier hash w none) :
    FilledBy getID fDataCarrier hash (w.run getID fDataCarrier getHash events)
      (firstFill getID fDataCarrier getHash hash w events) := by
  induction events generalizing w with
  | nil => exact h
  | cons e events ih =>
    have hstep := h.step_none getID fDataCarrier getHash hash e
    unfold firstFill
    split
    · rename_i hfill
      rw [if_pos hfill] at hstep
      exact hstep.run_some getID fDataCarrier getHash hash events
    · rename_i hfill
      rw [if_neg hfill] at hstep
      exact ih hstep

end CWallet

theorem CWalletTx.answer_congr {depth : Uint256 → Int} {tx : CTransaction}
    {value value' : AmountField → Amount}
    (h : ∀ field, field ≠ .immatureCredit → value field = value' field)
    (hi : maturing getHash depth tx = true → isInMainChain getHash depth tx = true →
      value .immatureCredit = value' .immatureCredit) (q : BalanceQuery) :
    answer getHash depth tx value q = answer getHash depth tx value' q := by
  cases q with
  | getImmatureCredit =>
    simp only [answer,Bool.and_eq_true]
    split
    · rename_i hm
      exact hi hm.1 hm.2
    · rfl
  | _ => simp [answer,filtered,h]

theorem CWallet.Asked.answers {depth : Uint256 → Int} {w w' : CWallet} {hash : Uint256}
    {wtx : CWalletTx} (h : Asked getID fDataCarrier getHash depth w w')
    (hw : w.mapWallet hash = some wtx) (q : BalanceQuery) :
    let computed := w.computed getID fDataCarrier getHash depth wtx.tx
    (w'.ask getID fDataCarrier getHash depth hash q).1 =
      some (CWalletTx.answer getHash depth wtx.tx (wtx.view computed) q) ∧
    w'.askUncached getID fDataCarrier getHash depth hash q =
      some (CWalletTx.answer getHash depth wtx.tx computed q) := by
  have htx := h.txs hash
  rw [hw,Option.map_some,Option.map_eq_some_iff] at htx
  obtain ⟨wtx',hw',-⟩ := htx
  obtain ⟨wtx₁,hw₁,htx',hview⟩ := h.view hash wtx' hw'
  have he : wtx₁ = wtx := by simpa [hw] using hw₁.symm
  subst he
  have hq := (wtx'.query_spec getID fDataCarrier getHash w' depth q).1
  have hf := ((CWalletTx.init wtx'.tx).query_spec getID fDataCarrier getHash w' depth q).1
  rw [h.toSameData.computed,htx',hview] at hq
  rw [h.toSameData.computed,CWalletTx.view_init] at hf
  constructor
  · simp only [CWallet.ask,hw',hq]
  · simp only [CWallet.askUncached,hw',Option.map_some,hf]
    simp only [CWalletTx.init,htx']

theorem CWalletTx.view_markDirty (wtx : CWalletTx) (computed : AmountField → Amount)
    {field : AmountField} (h : field ≠ .immatureCredit) :
    wtx.markDirty.view computed field = computed field := by
  simp [view,markDirty_fCached,h]

theorem CWalletTx.view_markDirty_immature (wtx : CWalletTx) (computed : AmountField → Amount) :
    wtx.markDirty.view computed .immatureCredit = wtx.view computed .immatureCredit := by
  simp [view,markDirty_fCached,markDirty_nCached]

/-- After any history, a change of the keys and MarkDirty, all the balances of a transaction that
are asked for under one chain and pool are those computed without caches, unless the transaction is
an immature coinbase whose immature credit was asked for before under keys that gave another one. -/
theorem amounts_coherent_iff (keystore : CWalletKeys) (history : List WalletEvent)
    (keys : CWalletKeys) (depth : Uint256 → Int) (hash : Uint256) (wtx : CWalletTx)
    (hwtx : ((CWallet.create keystore).run getID fDataCarrier getHash history).mapWallet hash =
      some wtx) :
    (∀ (asked : List (Uint256 × BalanceQuery)) (q : BalanceQuery),
      let w := ((CWallet.create keystore).run getID fDataCarrier getHash
        (history ++ [.setKeys keys,.markDirty])).asks getID fDataCarrier getHash depth asked
      (w.ask getID fDataCarrier getHash depth hash q).1 =
        w.askUncached getID fDataCarrier getHash depth hash q) ↔
    (maturing getHash depth wtx.tx = true → isInMainChain getHash depth wtx.tx = true →
      ∀ first ∈ (CWallet.firstFill getID fDataCarrier getHash hash (.create keystore) history),
        first.getCredit getID fDataCarrier wtx.tx ISMINE_SPENDABLE =
          keys.getCredit getID fDataCarrier wtx.tx ISMINE_SPENDABLE) := by
  have hrun : (CWallet.create keystore).run getID fDataCarrier getHash
      (history ++ [.setKeys keys,.markDirty]) =
      { (CWallet.create keystore).run getID fDataCarrier getHash history with
        keystore := keys }.markDirty := by
    simp [CWallet.run,CWallet.step]
  have hfill := CWallet.filledBy_run getID fDataCarrier getHash hash (w := .create keystore) history
    (by intro wtx h; simp [CWallet.create] at h)
  rw [hrun]
  generalize (CWallet.create keystore).run getID fDataCarrier getHash history = w₀ at hwtx hfill
  have hw : { w₀ with keystore := keys }.markDirty.mapWallet hash = some wtx.markDirty := by
    simp [CWallet.markDirty,hwtx]
  have hcomp : { w₀ with keystore := keys }.markDirty.computed getID fDataCarrier getHash depth
      wtx.tx .immatureCredit = keys.getCredit getID fDataCarrier wtx.tx ISMINE_SPENDABLE := rfl
  generalize { w₀ with keystore := keys }.markDirty = w at hw hcomp
  have hanswers := fun asked q =>
    (CWallet.asks_asked getID fDataCarrier getHash depth asked w).answers getID fDataCarrier getHash
      hw q
  have himm : wtx.markDirty.view (w.computed getID fDataCarrier getHash depth wtx.tx)
      .immatureCredit = keys.getCredit getID fDataCarrier wtx.tx ISMINE_SPENDABLE ↔
      ∀ first ∈ (CWallet.firstFill getID fDataCarrier getHash hash (.create keystore) history),
        first.getCredit getID fDataCarrier wtx.tx ISMINE_SPENDABLE =
          keys.getCredit getID fDataCarrier wtx.tx ISMINE_SPENDABLE := by
    rw [CWalletTx.view_markDirty_immature]
    cases hff : CWallet.firstFill getID fDataCarrier getHash hash (.create keystore) history with
    | none =>
      rw [hff] at hfill
      simp [CWalletTx.view,hfill wtx hwtx,hcomp]
    | some first =>
      rw [hff] at hfill
      obtain ⟨n,hn,hcell⟩ := hfill.2 wtx hwtx
      have hf : wtx.fCached .immatureCredit = true := congrArg Prod.fst hcell
      have hnc : wtx.nCached .immatureCredit = n := congrArg Prod.snd hcell
      simp [CWalletTx.view,hf,hnc,hn]
  constructor
  · intro h hm hc
    have hq := h [] .getImmatureCredit
    dsimp only at hq
    rw [(hanswers [] .getImmatureCredit).1,(hanswers [] .getImmatureCredit).2] at hq
    apply himm.1
    simpa [CWalletTx.answer,CWalletTx.markDirty_tx,hm,hc,hcomp] using hq
  · intro h asked q
    dsimp only
    rw [(hanswers asked q).1,(hanswers asked q).2]
    congr 1
    apply CWalletTx.answer_congr
    · intro field hfield
      exact wtx.view_markDirty _ hfield
    · intro hm hc
      exact (himm.2 (h hm hc)).trans hcomp.symm

end

/-- A coinbase transaction that pays five units to the key with the identifier 7. -/
def minedTx : CTransaction where
  nVersion := 1
  vin := [⟨⟨0,4294967295⟩,[],4294967295⟩]
  vout := [⟨5,[OP_DUP,OP_HASH160,0x14,7] ++ List.replicate 19 0 ++ [OP_EQUALVERIFY,OP_CHECKSIG]⟩]
  nLockTime := 0

def noKeys : CWalletKeys := ⟨.create,∅,[]⟩

def importedKeys : CWalletKeys :=
  ⟨{ CCryptoKeyStore.create with mapKeys := AList.singleton 7 (KeyHistory.keyOfByte 1 (by decide)) },∅,[]⟩

theorem amounts_coherent_unasked :
    let w := ((CWallet.create noKeys).run (fun _ => 7) true (fun _ => 1)
      [.addTx minedTx,.ask (fun _ => 1) 1 .getAvailableCredit,.setKeys importedKeys,
        .markDirty]).asks (fun _ => 7) true (fun _ => 1) (fun _ => 1) [(1,.getCredit ISMINE_ALL)]
    (w.ask (fun _ => 7) true (fun _ => 1) (fun _ => 1) 1 .getImmatureCredit).1 =
      w.askUncached (fun _ => 7) true (fun _ => 1) (fun _ => 1) 1 .getImmatureCredit :=
  (amounts_coherent_iff (fun _ => 7) true (fun _ => 1) noKeys
    [.addTx minedTx,.ask (fun _ => 1) 1 .getAvailableCredit] importedKeys (fun _ => 1) 1
    (.init minedTx) rfl).2 (by
      intro _ _ first hfirst
      cases hfirst) [(1,.getCredit ISMINE_ALL)] .getImmatureCredit

/-- The immature credit that was zero before the key was imported stays zero after it. -/
theorem immature_credit_stale :
    let w := (CWallet.create noKeys).run (fun _ => 7) true (fun _ => 1)
      [.addTx minedTx,.ask (fun _ => 1) 1 .getImmatureCredit,.setKeys importedKeys,.markDirty]
    (w.ask (fun _ => 7) true (fun _ => 1) (fun _ => 1) 1 .getImmatureCredit).1 = some (.ok 0) ∧
      w.askUncached (fun _ => 7) true (fun _ => 1) (fun _ => 1) 1 .getImmatureCredit =
        some (.ok 5) := by
  decide

end Anoncoin
