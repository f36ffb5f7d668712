import Foundry.Base.HashMap
import Foundry.Base.Words

/-!
# The caching database

Accounts and storage slots over a database that is only read.  What is cached is answered
from the cache, everything else by the database underneath.
-/

namespace Foundry.Evm

def keccakEmpty : B256 := 0xc5d2460186f7233c927e7db2dcc703c0e500b653ca82273b7bfad8045d85a470

structure AccountInfo where
  balance : U256
  nonce : U64
  codeHash : B256
  code : Option Bytes
deriving DecidableEq

def AccountInfo.default : AccountInfo := ⟨0, 0, keccakEmpty, some []⟩

inductive AccountState where
  | notExisting
  | touched
  | storageCleared
  | none
deriving DecidableEq

structure DbAccount where
  accountInfo : AccountInfo
  accountState : AccountState
  storage : HashMap U256 U256

namespace DbAccount

/-- A cached account that nothing is known of but `info`. -/
def ofInfo (info : AccountInfo) : DbAccount := ⟨info, .none, .empty⟩

def newNotExisting : DbAccount := ⟨.default, .notExisting, .empty⟩

def info (self : DbAccount) : Option AccountInfo :=
  if self.accountState = .notExisting then none else some self.accountInfo

end DbAccount

/-- The cache; `R` is the handle of the database underneath. -/
structure CacheDb (R : Type) where
  accounts : HashMap Address DbAccount
  contracts : HashMap B256 Bytes
  db : R

def CacheDb.new {R : Type} (db : R) : CacheDb R := ⟨.empty, .empty, db⟩

/-- The operations of the caching database, with the reads of the one underneath; `E` are its
errors. -/
structure CacheOps (R E : Type) where
  basicRef : CacheDb R → Address → Except E (Option AccountInfo)
  storageRef : CacheDb R → Address → U256 → Except E U256
  /-- The cached account, fetched and cached if it is missing. -/
  loadAccount : CacheDb R → Address → Except E (CacheDb R × DbAccount)
  insertAccountInfo : CacheDb R → Address → AccountInfo → CacheDb R

/-- Over a database in which every account has the same information and no storage. -/
def CacheOps.over {R E : Type} (remote : AccountInfo) : CacheOps R E where
  basicRef db address :=
    match db.accounts.get address with
    | some account => .ok account.info
    | none => .ok (some remote)
  storageRef db address index :=
    .ok (((db.accounts.get address).bind (·.storage.get index)).getD 0)
  loadAccount db address :=
    match db.accounts.get address with
    | some account => .ok (db, account)
    | none => .ok ({ db with accounts := db.accounts.insert address (.ofInfo remote) },
        .ofInfo remote)
  insertAccountInfo db address info :=
    { db with accounts := db.accounts.insert address (.ofInfo info) }

end Foundry.Evm
