import Nimburion.Lib.Interaction
import Nimburion.Lib.GoText
import Nimburion.Lib.Decimal
import Nimburion.Lib.GoTime
import Nimburion.Lib.RFC3339
import Nimburion.Lib.Redis
import Nimburion.Errors
import Nimburion.Reliability.Retry
import Nimburion.Jobs.Job
import Nimburion.Jobs.RedisBackend
import Nimburion.Jobs.RedisServer
import Nimburion.Jobs.RedisDiscipline
import Nimburion.Jobs.RedisLeases
import Nimburion.Jobs.RedisSafety
import Nimburion.Jobs.DeadLetter
import Nimburion.Jobs.Worker
import Nimburion.Jobs.WorkerBudget
import Nimburion.Jobs.WorkerServer
import Nimburion.Jobs.LeaseRenewal
import Nimburion.Jobs.RuntimeBackend
import Nimburion.Jobs.RuntimeLedger
import Nimburion.Jobs.RuntimeSafety
import Nimburion.EventBus.Adapters
import Nimburion.EventBus.KafkaConsumer
import Nimburion.Jobs.Contract
import Nimburion.Jobs.Transport
import Nimburion.Resilience.CircuitBreaker
import Nimburion.EventBus.RetryDLQ
import Nimburion.EventBus.RequeueSafety
import Nimburion.Resilience.HalfOpen
import Nimburion.EventBus.AggregateVersion
import Nimburion.Reliability.Dedup
import Nimburion.Lib.Transaction
import Nimburion.Reliability.ExactlyOnce
import Nimburion.Reliability.Outbox
import Nimburion.Lib.LeaseTable
import Nimburion.Coordination.Lock
import Nimburion.Coordination.RedisLock
import Nimburion.Coordination.LeaseExpiry
import Nimburion.Scheduler.Cron
import Nimburion.Scheduler.CronMeaning
import Nimburion.Scheduler.Runtime
import Nimburion.Scheduler.DispatchOnce
import Nimburion.HTTP.Session
import Nimburion.HTTP.SessionStore
import Nimburion.HTTP.SessionFixation
import Nimburion.HTTP.SessionDestroy
import Nimburion.HTTP.SessionVisit
import Nimburion.HTTP.SessionCookie
import Nimburion.HTTP.SessionExpiry
import Nimburion.HTTP.SSE
import Nimburion.HTTP.SSEHub
import Nimburion.HTTP.SSEChannels
import Nimburion.HTTP.SSERouting
import Nimburion.HTTP.SSEIndex
import Nimburion.HTTP.SSEHandlers
import Nimburion.HTTP.SSEConsistency
import Nimburion.HTTP.SSEBus
import Nimburion.HTTP.SSESubscriptions
import Nimburion.Lib.QueryEscape
import Nimburion.HTTP.CacheKey
import Nimburion.HTTP.CacheDimensions
import Nimburion.HTTP.CacheEntry
import Nimburion.HTTP.CacheGroup
import Nimburion.HTTP.CacheStages
import Nimburion.HTTP.CacheStampede
import Nimburion.HTTP.CacheSeparation
import Nimburion.HTTP.SSEReplay
import Nimburion.HTTP.Signature
import Nimburion.HTTP.Cors
import Nimburion.Cache.Memcached
import Nimburion.Lib.InteractionTrace
import Nimburion.Persistence.OptimisticLock
import Nimburion.Persistence.Adapter
import Nimburion.Persistence.QueryTimeout
import Nimburion.Persistence.Migrate
import Nimburion.Persistence.MigrateSafety
import Nimburion.Auth.Jwt
import Nimburion.Lib.MapOrder
import Nimburion.Auth.ClaimOrder
import Nimburion.Auth.StandIn
import Nimburion.HTTP.Router
import Nimburion.HTTP.RouterChains
import Nimburion.HTTP.RateLimit
import Nimburion.HTTP.RateLimitRedis
import Nimburion.HTTP.RateLimitWindow
import Nimburion.HTTP.Compression
import Nimburion.HTTP.CompressionTransparency
import Nimburion.HTTP.CompressionErrors
import Nimburion.Core.App
import Nimburion.Core.AppShutdown
import Nimburion.HTTP.Static
import Nimburion.Jobs.RedisAtomicity
import Nimburion.Jobs.HandlerPanic
import Nimburion.Jobs.RuntimeExpiry
import Nimburion.EventBus.SQSBatch
import Nimburion.Reliability.Backoff
import Nimburion.Reliability.Saga
import Nimburion.Resilience.Sequential
import Nimburion.Scheduler.Lifecycle
import Nimburion.EventBus.RetryReport
import Nimburion.Jobs.RoundTrip
import Nimburion.Scheduler.NextRun
import Nimburion.HTTP.CacheFreshness
import Nimburion.Audit.Mask
import Nimburion.Cache.InMemory
import Nimburion.Cache.MemcachedReplies
import Nimburion.Config.Keys
import Nimburion.HTTP.SSEWire
import Nimburion.HTTP.SignaturePayload
import Nimburion.Persistence.MigrateLoad
import Nimburion.Persistence.Paging
import Nimburion.Persistence.Update
import Nimburion.Core.AppStartup
import Nimburion.Email.Mime
import Nimburion.EventBus.Schema
import Nimburion.EventBus.SchemaAgreement
import Nimburion.HTTP.OpenAPI
import Nimburion.HTTP.OpenAPIDocument
import Nimburion.HTTP.RouterOptions
import Nimburion.HTTP.WebSocket
import Nimburion.I18n.Catalog
import Nimburion.I18n.Template
import Nimburion.Lib.Channel
import Nimburion.Lib.ThreeWay
import Nimburion.PubSub.InMemory
import Nimburion.PubSub.InMemoryRelease
import Nimburion.Version.Precedence
import Nimburion.Lib.FilePath
import Nimburion.SafePath.Validate
import Nimburion.Auth.Jwks
import Nimburion.Health.Registry
import Nimburion.FeatureFlag.Registry
import Nimburion.Logger.Async
import Nimburion.Logger.AsyncSafety
import Nimburion.Core.Errors
import Nimburion.HTTP.Authorization
