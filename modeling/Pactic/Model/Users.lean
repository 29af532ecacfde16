import Pactic.Model.Wallets

/-! # The user endpoints

The users service and its controller. The password hash and its comparison are
answers of the bcrypt library, whatever they are. -/
namespace Pactic
open Resumption

namespace UsersService

/-- Signup. The query returns some one row with this email or this username. -/
def create (dto : CreateUserDto) : Proc PublicUser := do
  let existingUser ← Prisma.userFindFirst dto.email dto.username
  match existingUser.filter fun u => u.deletedAt = none with
  | some _ => throw (.conflict "User with this email or username already exists")
  | none => do
    let hashedPassword ← call (.library (.hash dto.password))
    let user ← Prisma.userUpsert dto.email dto.username hashedPassword
    pure user.withoutPassword

def login (dto : LoginUserDto) (ip userAgent : String) : Proc (PublicUser × Token) := do
  let user ← Prisma.userFindByEmail dto.email
  let isMatch ← match user with
    | some u => call (.library (.compare dto.password u.password))
    | none => pure false
  sendToQueue .loginLogs
    (.login ⟨user.map User.id, dto.email, ip, userAgent, none, user.isSome && isMatch⟩) none
  match user with
  | none => throw (.unauthorized "Invalid credentials")
  | some u =>
    if !isMatch then throw (.unauthorized "Invalid credentials")
    else if u.deletedAt ≠ none then throw (.unauthorized "User account is deleted")
    else pure (u.withoutPassword, ⟨u.id, u.email⟩)

def getProfile (userId : Int) : Proc (Option Profile) := do
  match ← Redis.get (.userProfile userId) with
  | some cached => pure (some cached)
  | none => do
    match ← Prisma.userFindById userId with
    | none => pure none
    | some u => do
      let profile : Profile := ⟨u.id, u.email, u.username, u.createdAt, none⟩
      Redis.set (.userProfile userId) profile
      pure (some profile)

def updateProfile (client : Client) (userId : Int) (dto : JsonObject) : Proc Profile := do
  let u ← Prisma.userUpdate userId (client userId dto)
  let updated : Profile := ⟨u.id, u.email, u.username, u.createdAt, some u.updatedAt⟩
  Redis.del (.userProfile userId)
  Redis.set (.userProfile userId) updated
  pure updated

def deleteUser (userId : Int) : Proc Reply := do
  match ← Prisma.userFindById userId with
  | none => throw (.badRequest "User not found")
  | some user =>
    if user.deletedAt ≠ none then throw (.badRequest "User is already deleted")
    else do
      let now ← call (.library .now)
      let deleted ← Prisma.userUpdate userId (some { deletedAt := some (some now) })
      Redis.del (.userProfile userId)
      pure (.deleted deleted.id deleted.email deleted.username deleted.deletedAt)

end UsersService

namespace UsersController

def signup (body : CreateUserDto) : Proc Reply := do
  let user ← UsersService.create body
  pure (.user user)

def login (body : LoginUserDto) (ip userAgent : String) : Proc Reply := do
  let (user, token) ← UsersService.login body ip userAgent
  pure (.login user token)

def getProfile (userId tokenUserId : Int) : Proc Reply := do
  validateTokenUser userId tokenUserId
  let profile ← UsersService.getProfile userId
  pure (.profile profile)

/-- `body.userId`; what is no integer is no user id. -/
def bodyUserId (body : JsonObject) : Option Int :=
  match body.find? "userId" with
  | some (_, .num n) => if n.den = 1 then some n.num else none
  | _ => none

/-- The declared type of the body is no class, so the validation pipe lets the
body through as it came: `{ userId, ...dto }`. -/
def updateProfile (client : Client) (body : JsonObject) (tokenUserId : Int) : Proc Reply :=
  match bodyUserId body with
  | none => throw (.unauthorized "Invalid token for this user")
  | some userId => do
    validateTokenUser userId tokenUserId
    let updated ← UsersService.updateProfile client userId (body.erase "userId")
    pure (.profile (some updated))

def deleteUser (userId tokenUserId : Int) : Proc Reply := do
  validateTokenUser userId tokenUserId
  UsersService.deleteUser userId

end UsersController
end Pactic
