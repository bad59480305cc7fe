import CodecServer.Config.RoundTrip
import CodecServer.Ambe3K.Protocol.ErrorDetection
import CodecServer.Ambe3K.Protocol.Bounds
import CodecServer.Ambe3K.Protocol.Truncation
import CodecServer.Ambe3K.Continuity
import CodecServer.Ambe3K.Framing
import CodecServer.Ambe3K.Renegotiation
import CodecServer.Ambe3K.ClientData
import CodecServer.Server.Reservation
import CodecServer.Server.Totality
import CodecServer.Server.Startup
import CodecServer.Server.Lifetime
import CodecServer.Server.Dispatch
import CodecServer.Server.Forwarding
import CodecServer.Connection.Delivery
import CodecServer.Connection.Senders
import CodecServer.Ambe3K.QueueMonitor
import CodecServer.Ambe3K.Initialization
import CodecServer.Ambe3K.Progress
import CodecServer.Ambe3K.Protocol.Corruption
import CodecServer.Ambe3K.Protocol.Recognition
import CodecServer.Ambe3K.Replug
import CodecServer.Server.Admission
import CodecServer.Server.Conversation
import CodecServer.Server.Synchronization
import CodecServer.Server.Shutdown
import CodecServer.Ambe3K.OutQueue
import CodecServer.Ambe3K.Transcoding
import CodecServer.Server.Joining
